/-
Wjos.Tools.Log — `kernel_vsprintf` and `log_printf`.

`vsprintfLoop` is the loop of `kernel_vsprintf` over the format, on a memory in
which the output goes to the cells from `curr` on. `fmtPieces` takes the format
apart into ordinary characters and conversions, each with the place of its
argument, and `expand` is the text of the pieces; `vsprintfLoop_eq` says that
the loop writes this text, with a NUL behind it if a number comes last. The
arguments are words on the stack, as many as the format asks for, whatever lies
there. The format, the strings and the arguments are not in the buffer.

`log_printf` clears its 128 bytes, formats into them and hands what
`kernel_strlen` counts to the log device. There is no bound and no terminator
but the zeros of the clearing, so all is well if the text is shorter than the
buffer and no `%c` has put a NUL into it, and only then (`logRight_iff`).
-/
import Wjos.Base.HistoryCmd
import Wjos.Tools.Itoa
import Wjos.Tools.Strncpy

namespace Wjos

open Lib

/-- The number of bytes that `kernel_strlen` can look at. -/
def addressSpace : Nat := 4294967296

/-- What a function with a variable number of arguments finds: the words on the
stack, and the memory that pointers among them point into. -/
structure VaArgs where
  word : Nat → BitVec 32
  mem : Nat → UInt8

/-- The `int` that `va_arg` converts to a `char`. -/
def VaArgs.char (args : VaArgs) (i : Nat) : UInt8 := UInt8.ofNat (args.word i).toNat

/-- The string that the argument `i` points to, none for a null pointer. -/
def VaArgs.string (args : VaArgs) (i : Nat) : List UInt8 :=
  let p := (args.word i).toNat
  if p = 0 then []
  else
    (List.range (CmdHistory.kernelStrlen (fun k => args.mem (p + k)) addressSpace)).map
      fun k => args.mem (p + k)

/-- `state`. -/
inductive FmtState where
  | normal
  | readFmt
deriving DecidableEq, Repr

/-- `kernel_itoa(curr, num, base); curr += kernel_strlen(curr)`. -/
def putNumber (m : Track UInt8) (curr : Int) (num : BitVec 32) (base : Nat) : Track UInt8 × Int :=
  let m := kernelItoa m curr num base
  (m, curr + CmdHistory.kernelStrlen (fun k => m.cell (curr + k)) addressSpace)

/-- The loop of `kernel_vsprintf`; `arg` is the next argument. -/
def vsprintfLoop (args : VaArgs) :
    List UInt8 → FmtState → (arg : Nat) → Track UInt8 → (curr : Int) → Track UInt8 × Int
  | [], _, _, m, curr => (m, curr)
  | ch :: fmt, state, arg, m, curr =>
    if ch = 0 then (m, curr)
    else
      match state with
      | .normal =>
        if ch = 37 then vsprintfLoop args fmt .readFmt arg m curr
        else vsprintfLoop args fmt .normal arg (m.put curr ch) (curr + 1)
      | .readFmt =>
        if ch = 115 then
          let str := args.string arg
          vsprintfLoop args fmt .normal (arg + 1) (m.write curr str) (curr + str.length)
        else if ch = 100 then
          let r := putNumber m curr (args.word arg) 10
          vsprintfLoop args fmt .normal (arg + 1) r.1 r.2
        else if ch = 120 then
          let r := putNumber m curr (args.word arg) 16
          vsprintfLoop args fmt .normal (arg + 1) r.1 r.2
        else if ch = 99 then
          vsprintfLoop args fmt .normal (arg + 1) (m.put curr (args.char arg)) (curr + 1)
        else vsprintfLoop args fmt .normal arg m curr

/-- `log_printf`: the memory around `str_buf`, which is cell 0, when
`kernel_strlen` reads it, and the bytes that go to the log device. -/
def logPrintf (stack : Int → UInt8) (fmt : List UInt8) (args : VaArgs) :
    Track UInt8 × List UInt8 :=
  let m := (Track.start stack).write 0 (List.replicate 128 0)
  let m := (vsprintfLoop args fmt .normal 0 m 0).1
  (m, ((List.range (CmdHistory.kernelStrlen (fun k => m.cell k) addressSpace)).map
    fun k : Nat => m.cell k) ++ [10])

/-! ## The text of a format -/

/-- A piece of a format. -/
inductive FmtPiece where
  | char (ch : UInt8)
  | str (arg : Nat)
  | num (base arg : Nat)
  | chr (arg : Nat)
deriving DecidableEq, Repr

/-- The pieces of a format. Any other character behind a `%` is left out. -/
def fmtPieces : List UInt8 → FmtState → (arg : Nat) → List FmtPiece
  | [], _, _ => []
  | ch :: fmt, state, arg =>
    if ch = 0 then []
    else
      match state with
      | .normal =>
        if ch = 37 then fmtPieces fmt .readFmt arg else .char ch :: fmtPieces fmt .normal arg
      | .readFmt =>
        if ch = 115 then .str arg :: fmtPieces fmt .normal (arg + 1)
        else if ch = 100 then .num 10 arg :: fmtPieces fmt .normal (arg + 1)
        else if ch = 120 then .num 16 arg :: fmtPieces fmt .normal (arg + 1)
        else if ch = 99 then .chr arg :: fmtPieces fmt .normal (arg + 1)
        else fmtPieces fmt .normal arg

/-- The text of a piece. -/
def FmtPiece.text (args : VaArgs) : FmtPiece → List UInt8
  | char ch => [ch]
  | str arg => args.string arg
  | num base arg => itoaText (args.word arg) base
  | chr arg => [args.char arg]

/-- The text of pieces. -/
def expand (args : VaArgs) (pieces : List FmtPiece) : List UInt8 :=
  pieces.flatMap (FmtPiece.text args)

/-- The characters of a number with its sign. -/
def numeralSize (base : Nat) (v : Int) : Nat :=
  (numeralDigits base v.natAbs).length + if v < 0 then 1 else 0

/-- The room that a piece takes. -/
def FmtPiece.size (args : VaArgs) : FmtPiece → Nat
  | char _ => 1
  | str arg => (args.string arg).length
  | num base arg => numeralSize base (itoaValue (args.word arg) base)
  | chr _ => 1

/-- The room that a format takes. -/
def fmtSize (args : VaArgs) (pieces : List FmtPiece) : Nat :=
  (pieces.map (FmtPiece.size args)).sum

/-- No `%c` is given a NUL. -/
def NoNulChar (args : VaArgs) (pieces : List FmtPiece) : Prop :=
  ∀ arg, FmtPiece.chr arg ∈ pieces → args.char arg ≠ 0

/-- The stores stay in `str_buf`, which has a NUL when `kernel_strlen` reads
it, and the log device gets the text of the format and a newline. -/
structure LogRight (stack : Int → UInt8) (fmt : List UInt8) (args : VaArgs) : Prop where
  inside : ∀ a ∈ (logPrintf stack fmt args).1.stored, 0 ≤ a ∧ a < 128
  ended : ∃ k : Nat, k < 128 ∧ (logPrintf stack fmt args).1.cell k = 0
  sent : (logPrintf stack fmt args).2 = expand args (fmtPieces fmt .normal 0) ++ [10]

/-! ## kernel_strlen -/

variable {m : Track UInt8} {args : VaArgs} {s : Nat → UInt8} {curr : Int}

theorem kernelStrlen_strLen {len n : Nat} (h : StrLen s len) (hn : len ≤ n) :
    CmdHistory.kernelStrlen s n = len := by
  induction n generalizing s len with
  | zero => rw [Nat.le_zero.mp hn, CmdHistory.kernelStrlen]
  | succ n ih =>
    rw [CmdHistory.kernelStrlen]
    cases len with
    | zero => exact if_pos h.ended
    | succ len =>
      have hnext : StrLen (fun i => s (i + 1)) len :=
        ⟨fun k hk => h.nonzero (k + 1) (by omega), h.ended⟩
      rw [if_neg (h.nonzero 0 (by omega)), ih hnext (by omega)]

/-- Before the end that it finds there is no NUL. -/
theorem kernelStrlen_nonzero {n k : Nat} (hk : k < CmdHistory.kernelStrlen s n) : s k ≠ 0 := by
  induction n generalizing s k with
  | zero => simp [CmdHistory.kernelStrlen] at hk
  | succ n ih =>
    rw [CmdHistory.kernelStrlen] at hk
    split at hk
    · exact absurd hk (Nat.not_lt_zero k)
    next h0 =>
      cases k with
      | zero => exact h0
      | succ k => exact ih (s := fun i => s (i + 1)) (by omega)

/-! ## What the loop writes -/

/-- A number is written with a NUL, and the next character goes onto that. -/
theorem putNumber_eq {base : Nat} (hbase : base = 10 ∨ base = 16) (num : BitVec 32) :
    putNumber m curr num base =
      (m.write curr (itoaText num base ++ [0]), curr + (itoaText num base).length) := by
  have hspells := Track.spells_write (m := m) (a := curr)
    (itoaText_ne_zero (by omega : 2 ≤ base) (by omega) num)
  have hlen : StrLen (fun k : Nat => (m.write curr (itoaText num base ++ [0])).cell (curr + k))
      (itoaText num base).length := by
    refine ⟨fun k hk => ?_, hspells.ended⟩
    rw [hspells.cell k hk]
    exact hspells.nonzero _ (List.getElem_mem hk)
  have h33 := itoaText_length_le (by omega : 2 ≤ base) num
  have hspace : (itoaText num base).length ≤ addressSpace := Nat.le_trans h33 (by decide)
  rw [putNumber, kernelItoa_eq (by omega), kernelStrlen_strLen hlen hspace]

/-- What follows a number goes onto its NUL, which stays if nothing does. -/
theorem write_number (m : Track UInt8) (curr : Int) (num e t : List UInt8) (ht : t = [] ∨ t = [0]) :
    ∃ t', (t' = [] ∨ t' = [0]) ∧
      (m.write curr (num ++ [0])).write (curr + num.length) (e ++ t) =
        m.write curr (num ++ e ++ t') := by
  by_cases hnil : e ++ t = []
  · obtain ⟨he, -⟩ := List.append_eq_nil_iff.mp hnil
    refine ⟨[0], .inr rfl, ?_⟩
    rw [hnil, he, List.append_nil, Track.write_nil]
  · refine ⟨t, ht, ?_⟩
    rw [Track.write_over hnil, List.append_assoc]

theorem expand_cons (args : VaArgs) (piece : FmtPiece) (pieces : List FmtPiece) :
    expand args (piece :: pieces) = piece.text args ++ expand args pieces := List.flatMap_cons

/-- The loop writes the text of the format. -/
theorem vsprintfLoop_eq (args : VaArgs) (fmt : List UInt8) (state : FmtState) (arg : Nat)
    (m : Track UInt8) (curr : Int) :
    ∃ t, (t = [] ∨ t = [0]) ∧
      vsprintfLoop args fmt state arg m curr =
        (m.write curr (expand args (fmtPieces fmt state arg) ++ t),
          curr + (expand args (fmtPieces fmt state arg)).length) := by
  induction fmt generalizing state arg m curr with
  | nil => exact ⟨[], .inl rfl, by simp [vsprintfLoop, fmtPieces, expand]⟩
  | cons ch fmt ih =>
    -- a piece whose text is `s`, and the rest of the format behind it
    have hpiece : ∀ (piece : FmtPiece) (arg : Nat), ∃ t, (t = [] ∨ t = [0]) ∧
        vsprintfLoop args fmt .normal arg (m.write curr (piece.text args))
            (curr + (piece.text args).length) =
          (m.write curr (expand args (piece :: fmtPieces fmt .normal arg) ++ t),
            curr + (expand args (piece :: fmtPieces fmt .normal arg)).length) := by
      intro piece arg
      obtain ⟨t, ht, heq⟩ := ih .normal arg (m.write curr (piece.text args))
        (curr + (piece.text args).length)
      refine ⟨t, ht, ?_⟩
      rw [heq, ← Track.write_append, expand_cons, List.append_assoc, List.length_append,
        Int.natCast_add, Int.add_assoc]
    have hnumber : ∀ base, base = 10 ∨ base = 16 → ∃ t, (t = [] ∨ t = [0]) ∧
        vsprintfLoop args fmt .normal (arg + 1) (putNumber m curr (args.word arg) base).1
            (putNumber m curr (args.word arg) base).2 =
          (m.write curr (expand args (.num base arg :: fmtPieces fmt .normal (arg + 1)) ++ t),
            curr + (expand args (.num base arg :: fmtPieces fmt .normal (arg + 1))).length) := by
      intro base hbase
      rw [putNumber_eq hbase]
      obtain ⟨t, ht, heq⟩ := ih .normal (arg + 1)
        (m.write curr (itoaText (args.word arg) base ++ [0]))
        (curr + (itoaText (args.word arg) base).length)
      obtain ⟨t', ht', hover⟩ := write_number m curr
        (itoaText (args.word arg) base) (expand args (fmtPieces fmt .normal (arg + 1))) t ht
      refine ⟨t', ht', ?_⟩
      rw [heq, hover, expand_cons, List.length_append, Int.natCast_add, Int.add_assoc]
      rfl
    by_cases h0 : ch = 0
    · rw [vsprintfLoop.eq_def, fmtPieces.eq_def]
      exact ⟨[], .inl rfl, by simp [h0, expand]⟩
    cases state with
    | normal =>
      rw [vsprintfLoop, fmtPieces, if_neg h0, if_neg h0]
      by_cases hpercent : ch = 37
      · simp only [if_pos hpercent]
        exact ih .readFmt arg m curr
      · simp only [if_neg hpercent]
        exact hpiece (.char ch) arg
    | readFmt =>
      rw [vsprintfLoop, fmtPieces, if_neg h0, if_neg h0]
      by_cases hs : ch = 115
      · simp only [if_pos hs]
        exact hpiece (.str arg) (arg + 1)
      by_cases hd : ch = 100
      · simp only [if_neg hs, if_pos hd]
        exact hnumber 10 (.inl rfl)
      by_cases hx : ch = 120
      · simp only [if_neg hs, if_neg hd, if_pos hx]
        exact hnumber 16 (.inr rfl)
      by_cases hc : ch = 99
      · simp only [if_neg hs, if_neg hd, if_neg hx, if_pos hc]
        exact hpiece (.chr arg) (arg + 1)
      · simp only [if_neg hs, if_neg hd, if_neg hx, if_neg hc]
        exact ih .normal arg m curr

/-! ## The room and the NULs of a format -/

theorem itoaText_size (num : BitVec 32) (base : Nat) :
    (itoaText num base).length = numeralSize base (itoaValue num base) := by
  rw [itoaText_length, numeralSize, itoaValue]
  by_cases h10 : base = 10
  · by_cases hneg : num.toInt < 0
    · rw [if_pos ⟨hneg, h10⟩, if_pos h10, if_pos hneg]
    · have habs : num.toInt.natAbs = num.toNat := by
        have := toNat_of_nonneg hneg
        omega
      rw [if_neg (fun h => hneg h.1), if_pos h10, if_neg hneg, habs, Nat.add_zero]
  · rw [if_neg (fun h => h10 h.2), if_neg h10, Int.natAbs_natCast, if_neg (by omega), Nat.add_zero]

theorem expand_length (args : VaArgs) (pieces : List FmtPiece) :
    (expand args pieces).length = fmtSize args pieces := by
  have hpiece : ∀ piece : FmtPiece, (piece.text args).length = piece.size args := by
    intro piece
    cases piece with
    | num base arg => exact itoaText_size (args.word arg) base
    | _ => rfl
  induction pieces with
  | nil => rfl
  | cons piece pieces ih =>
    rw [expand_cons, List.length_append, ih, hpiece, fmtSize, fmtSize, List.map_cons, List.sum_cons]

theorem string_nonzero (args : VaArgs) (arg : Nat) : ∀ c ∈ args.string arg, c ≠ 0 := by
  intro c hc
  rw [VaArgs.string] at hc
  split at hc
  · exact absurd hc List.not_mem_nil
  · obtain ⟨k, hk, rfl⟩ := List.mem_map.mp hc
    exact kernelStrlen_nonzero (s := fun k => args.mem ((args.word arg).toNat + k))
      (List.mem_range.mp hk)

/-- The characters of a format are not NUL, its numbers are in base 10 or 16. -/
def FmtPiece.Ok : FmtPiece → Prop
  | char ch => ch ≠ 0
  | num base _ => base = 10 ∨ base = 16
  | _ => True

theorem fmtPieces_ok (fmt : List UInt8) (state : FmtState) (arg : Nat) :
    ∀ piece ∈ fmtPieces fmt state arg, piece.Ok := by
  induction fmt generalizing state arg with
  | nil => simp [fmtPieces]
  | cons ch fmt ih =>
    have hcons : ∀ (piece : FmtPiece) (state : FmtState) (arg : Nat), piece.Ok →
        ∀ p ∈ piece :: fmtPieces fmt state arg, p.Ok := by
      intro piece state arg hok p hp
      rcases List.mem_cons.mp hp with rfl | hp
      · exact hok
      · exact ih state arg p hp
    rw [fmtPieces.eq_def]
    by_cases h0 : ch = 0
    · simp [h0]
    cases state with
    | normal =>
      simp only [if_neg h0]
      split
      · exact ih _ _
      · exact hcons _ _ _ h0
    | readFmt =>
      simp only [if_neg h0]
      split
      · exact hcons _ _ _ trivial
      split
      · exact hcons _ _ _ (.inl rfl)
      split
      · exact hcons _ _ _ (.inr rfl)
      split
      · exact hcons _ _ _ trivial
      · exact ih _ _

/-- Only a `%c` can put a NUL into the text. -/
theorem expand_nonzero_iff {pieces : List FmtPiece} (hok : ∀ piece ∈ pieces, piece.Ok) :
    (∀ c ∈ expand args pieces, c ≠ 0) ↔ NoNulChar args pieces := by
  constructor
  · intro h arg harg
    exact h _ (List.mem_flatMap.mpr ⟨_, harg, List.mem_singleton.mpr rfl⟩)
  · intro h c hc
    obtain ⟨piece, hpiece, hc⟩ := List.mem_flatMap.mp hc
    have hp := hok piece hpiece
    cases piece with
    | char ch => exact List.mem_singleton.mp hc ▸ hp
    | str arg => exact string_nonzero args arg c hc
    | num base arg =>
      have hbase : base = 10 ∨ base = 16 := hp
      exact itoaText_ne_zero (by omega) (by omega) _ c hc
    | chr arg => exact List.mem_singleton.mp hc ▸ h arg hpiece

/-! ## log_printf -/

/-- The buffer after the formatting, and what is sent of it. -/
theorem logPrintf_eq (stack : Int → UInt8) (fmt : List UInt8) (args : VaArgs) :
    ∃ t, (t = [] ∨ t = [0]) ∧
      (logPrintf stack fmt args).1 = ((Track.start stack).write 0 (List.replicate 128 0)).write 0
        (expand args (fmtPieces fmt .normal 0) ++ t) := by
  obtain ⟨t, ht, heq⟩ := vsprintfLoop_eq args fmt .normal 0
    ((Track.start stack).write 0 (List.replicate 128 0)) 0
  exact ⟨t, ht, congrArg Prod.fst heq⟩

/-- A message is right exactly if its text is shorter than the buffer and has
no NUL in it. -/
theorem logRight_iff (stack : Int → UInt8) (fmt : List UInt8) (args : VaArgs) :
    LogRight stack fmt args ↔
      fmtSize args (fmtPieces fmt .normal 0) ≤ 127 ∧ NoNulChar args (fmtPieces fmt .normal 0) := by
  obtain ⟨t, ht, hm⟩ := logPrintf_eq stack fmt args
  have hlen : t.length ≤ 1 := by
    rcases ht with rfl | rfl <;> decide
  rw [← expand_length, ← expand_nonzero_iff (fmtPieces_ok fmt .normal 0)]
  have hsent : (logPrintf stack fmt args).2 =
      ((List.range (CmdHistory.kernelStrlen (fun k => (logPrintf stack fmt args).1.cell k)
        addressSpace)).map fun k : Nat => (logPrintf stack fmt args).1.cell k) ++ [10] := rfl
  -- the cells of the text
  have hcell : ∀ k (hk : k < (expand args (fmtPieces fmt .normal 0)).length),
      (logPrintf stack fmt args).1.cell k = (expand args (fmtPieces fmt .normal 0))[k] := by
    intro k hk
    rw [hm, ← Int.zero_add (k : Int), Track.write_cell (by simp; omega),
      List.getElem_append_left hk]
  constructor
  · intro h
    have hfit : (expand args (fmtPieces fmt .normal 0)).length ≤ 128 := by
      refine Nat.le_of_not_lt fun hlong => ?_
      have hin := h.inside 128 (by
        rw [hm, Track.mem_write, List.length_append]
        omega)
      omega
    have htext := List.append_cancel_right (hsent.symm.trans h.sent)
    have hstrlen := congrArg List.length htext
    rw [List.length_map, List.length_range] at hstrlen
    have hnonzero : ∀ c ∈ expand args (fmtPieces fmt .normal 0), c ≠ 0 := by
      intro c hc
      obtain ⟨k, hk, rfl⟩ := List.getElem_of_mem hc
      rw [← hcell k hk]
      exact kernelStrlen_nonzero (s := fun k : Nat => (logPrintf stack fmt args).1.cell k)
        (by rw [hstrlen]; exact hk)
    refine ⟨Nat.le_of_not_lt fun hfull => ?_, hnonzero⟩
    obtain ⟨k, hk, hzero⟩ := h.ended
    rw [hcell k (by omega)] at hzero
    exact hnonzero _ (List.getElem_mem _) hzero
  · rintro ⟨hshort, hnonzero⟩
    have hend : (logPrintf stack fmt args).1.cell
        ((expand args (fmtPieces fmt .normal 0)).length : Int) = 0 := by
      rcases ht with rfl | rfl
      · rw [hm, List.append_nil, Track.write_cell_of_ge (by omega),
          ← Int.zero_add (List.length _ : Int),
          Track.write_cell (by rw [List.length_replicate]; omega), List.getElem_replicate]
      · rw [hm, ← Int.zero_add (List.length _ : Int), Track.write_cell (by simp)]
        simp
    have hlenEq : StrLen (fun k : Nat => (logPrintf stack fmt args).1.cell k)
        (expand args (fmtPieces fmt .normal 0)).length := by
      refine ⟨fun k hk => ?_, hend⟩
      rw [hcell k hk]
      exact hnonzero _ (List.getElem_mem hk)
    refine ⟨fun a ha => ?_, ⟨_, by omega, hend⟩, ?_⟩
    · rw [hm, Track.mem_write, Track.mem_write, List.length_append, List.length_replicate] at ha
      rcases ha with (ha | ha) | ha
      · exact absurd ha (Finset.notMem_empty a)
      · omega
      · omega
    · rw [hsent, kernelStrlen_strLen hlenEq (by rw [addressSpace]; omega)]
      refine congrArg (· ++ [10]) (List.ext_getElem (by simp) fun k h₁ h₂ => ?_)
      rw [List.getElem_map, List.getElem_range]
      exact hcell k h₂

end Wjos
