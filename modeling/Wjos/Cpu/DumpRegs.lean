/-
Wjos.Cpu.DumpRegs — the messages of `dump_core_regs` (kernel/cpu/irq.c) and
`sys_print_msg` (kernel/core/syscall.c).

Three of the four messages about an exception fit the buffer of `log_printf`
whatever the registers hold. The third has 64 characters and eight numbers in
base 16, of eight digits at most: 128 characters when all the numbers have all
their digits, and then the buffer has no room for a NUL. A task chooses the
format that `sys_print_msg` passes on, and with it how much is written.
-/
import Wjos.Tools.Log

namespace Wjos

open Lib

/-- `exception_frame_t`. -/
structure ExceptionFrame where
  gs : BitVec 32
  fs : BitVec 32
  es : BitVec 32
  ds : BitVec 32
  edi : BitVec 32
  esi : BitVec 32
  ebp : BitVec 32
  esp : BitVec 32
  ebx : BitVec 32
  edx : BitVec 32
  ecx : BitVec 32
  eax : BitVec 32
  num : BitVec 32
  errorCode : BitVec 32
  eip : BitVec 32
  cs : BitVec 32
  eflags : BitVec 32
  esp3 : BitVec 32
  ss3 : BitVec 32

/-- The local `ss`. -/
def ExceptionFrame.dumpedSs (frame : ExceptionFrame) : BitVec 32 :=
  if frame.cs &&& 3 ≠ 0 then frame.ss3 else frame.ds

/-- The local `esp`. -/
def ExceptionFrame.dumpedEsp (frame : ExceptionFrame) : BitVec 32 :=
  if frame.cs &&& 3 ≠ 0 then frame.esp3 else frame.esp

/-- The format of the third message. -/
def generalFmt : List UInt8 :=
  literal ("EAX:0x%x\r\nEBX:0x%x\r\nECX:0x%x\r\nEDX:0x%x\r\n" ++
    "EDI:0x%x\r\nESI:0x%x\r\nEBP:0x%x\r\nESP:0x%x\r\n")

/-- The calls of `log_printf` in `dump_core_regs`: format and arguments. -/
def dumpCoreRegs (frame : ExceptionFrame) : List (List UInt8 × List (BitVec 32)) :=
  [(literal "IRQ: %d, error code: %d.", [frame.num, frame.errorCode]),
    (literal "CS: %d\r\nDS: %d\r\nES: %d\r\nSS: %d\r\nFS:%d\r\nGS:%d",
      [frame.cs, frame.ds, frame.es, frame.dumpedSs, frame.fs, frame.gs]),
    (generalFmt,
      [frame.eax, frame.ebx, frame.ecx, frame.edx, frame.edi, frame.esi, frame.ebp,
        frame.dumpedEsp]),
    (literal "EIP:0x%x\r\nEFLAGS:0x%x\r\n", [frame.eip, frame.eflags])]

/-- The arguments of a call; `above` is what lies behind them on the stack. -/
def callArgs (above : Nat → BitVec 32) (mem : Nat → UInt8) (l : List (BitVec 32)) : VaArgs where
  word i := l.getD i (above (i - l.length))
  mem := mem

/-- `sys_print_msg`. -/
def sysPrintMsg (stack : Int → UInt8) (above : Nat → BitVec 32) (mem : Nat → UInt8)
    (fmt : List UInt8) (arg : BitVec 32) : Track UInt8 × List UInt8 :=
  logPrintf stack fmt (callArgs above mem [arg])

/-- All messages of the dump are right. -/
def DumpRight (stack : Int → UInt8) (above : Nat → BitVec 32) (mem : Nat → UInt8)
    (frame : ExceptionFrame) : Prop :=
  ∀ call ∈ dumpCoreRegs frame, LogRight stack call.1 (callArgs above mem call.2)

/-- The registers of the third message. -/
def ExceptionFrame.general (frame : ExceptionFrame) : List (BitVec 32) :=
  [frame.eax, frame.ebx, frame.ecx, frame.edx, frame.edi, frame.esi, frame.ebp, frame.dumpedEsp]

/-! ## The room that the messages take -/

variable {args : VaArgs} {p₁ p₂ : List FmtPiece}

/-- A number between two texts. -/
def labelled (s : String) (base arg : Nat) (e : String) : List FmtPiece :=
  (literal s).map .char ++ .num base arg :: (literal e).map .char

theorem fmtSize_append : fmtSize args (p₁ ++ p₂) = fmtSize args p₁ + fmtSize args p₂ := by
  rw [fmtSize, List.map_append, List.sum_append]
  rfl

theorem fmtSize_chars (l : List UInt8) : fmtSize args (l.map .char) = l.length := by
  induction l with
  | nil => rfl
  | cons c l ih =>
    rw [List.map_cons, ← List.singleton_append, fmtSize_append, ih, List.length_cons, Nat.add_comm]
    rfl

theorem fmtSize_labelled (s : String) (base arg : Nat) (e : String) :
    fmtSize args (labelled s base arg e) =
      (literal s).length + numeralSize base (itoaValue (args.word arg) base) +
        (literal e).length := by
  rw [labelled, fmtSize_append, fmtSize_chars, ← List.singleton_append, fmtSize_append,
    fmtSize_chars, Nat.add_assoc]
  rfl

/-- `%d` writes eleven characters at most. -/
theorem decimal_le (num : BitVec 32) : numeralSize 10 (itoaValue num 10) ≤ 11 := by
  have hlow := num.le_toInt
  have hhigh := num.toInt_lt
  have habs : num.toInt.natAbs < 10 ^ 10 := by
    norm_num at hlow hhigh ⊢
    omega
  have hdigits := (numeralDigits_length_le_iff (by decide) (by decide) _).mpr habs
  rw [numeralSize, itoaValue, if_pos rfl]
  split <;> omega

theorem hex_eq (num : BitVec 32) :
    numeralSize 16 (itoaValue num 16) = (numeralDigits 16 num.toNat).length := by
  rw [numeralSize, itoaValue, if_neg (by decide), Int.natAbs_natCast, if_neg (by omega),
    Nat.add_zero]

/-- `%x` writes eight characters at most, and that many from 2^28 on. -/
theorem hex_le (num : BitVec 32) :
    numeralSize 16 (itoaValue num 16) ≤ 8 ∧
      (numeralSize 16 (itoaValue num 16) ≤ 7 ↔ num.toNat < 268435456) := by
  have hlt := num.isLt
  rw [hex_eq]
  exact ⟨(numeralDigits_length_le_iff (by decide) (by decide) _).mpr (by omega),
    numeralDigits_length_le_iff (by decide) (by decide) _⟩

/-- A format without `%c` puts no NUL into its text. -/
theorem noNulChar_of {pieces : List FmtPiece} (h : ∀ arg, FmtPiece.chr arg ∉ pieces) :
    NoNulChar args pieces := fun arg harg => absurd harg (h arg)

@[simp] theorem chr_notMem_labelled (s : String) (base arg a : Nat) (e : String) :
    FmtPiece.chr a ∉ labelled s base arg e := by
  simp [labelled]

/-! ## The four messages -/

variable {stack : Int → UInt8}

theorem dump_irq_right (args : VaArgs) :
    LogRight stack (literal "IRQ: %d, error code: %d.") args := by
  have hp : fmtPieces (literal "IRQ: %d, error code: %d.") .normal 0 =
      labelled "IRQ: " 10 0 ", error code: " ++ labelled "" 10 1 "." := by decide +kernel
  have h₀ := decimal_le (args.word 0)
  have h₁ := decimal_le (args.word 1)
  rw [logRight_iff, hp]
  refine ⟨?_, noNulChar_of (by simp)⟩
  simp only [fmtSize_append, fmtSize_labelled]
  have hlen : (literal "IRQ: ").length + (literal ", error code: ").length +
      ((literal "").length + (literal ".").length) = 20 := by decide
  omega

theorem dump_segments_right (args : VaArgs) :
    LogRight stack (literal "CS: %d\r\nDS: %d\r\nES: %d\r\nSS: %d\r\nFS:%d\r\nGS:%d") args := by
  have hp : fmtPieces (literal "CS: %d\r\nDS: %d\r\nES: %d\r\nSS: %d\r\nFS:%d\r\nGS:%d") .normal 0 =
      labelled "CS: " 10 0 "\r\n" ++ labelled "DS: " 10 1 "\r\n" ++ labelled "ES: " 10 2 "\r\n" ++
        labelled "SS: " 10 3 "\r\n" ++ labelled "FS:" 10 4 "\r\n" ++ labelled "GS:" 10 5 "" := by
    decide +kernel
  have h₀ := decimal_le (args.word 0)
  have h₁ := decimal_le (args.word 1)
  have h₂ := decimal_le (args.word 2)
  have h₃ := decimal_le (args.word 3)
  have h₄ := decimal_le (args.word 4)
  have h₅ := decimal_le (args.word 5)
  rw [logRight_iff, hp]
  refine ⟨?_, noNulChar_of (by simp)⟩
  simp only [fmtSize_append, fmtSize_labelled]
  have hlen : (literal "CS: ").length + (literal "DS: ").length + (literal "ES: ").length +
      (literal "SS: ").length + (literal "FS:").length + (literal "GS:").length +
      5 * (literal "\r\n").length + (literal "").length = 32 := by decide
  omega

theorem dump_eip_right (args : VaArgs) :
    LogRight stack (literal "EIP:0x%x\r\nEFLAGS:0x%x\r\n") args := by
  have hp : fmtPieces (literal "EIP:0x%x\r\nEFLAGS:0x%x\r\n") .normal 0 =
      labelled "EIP:0x" 16 0 "\r\n" ++ labelled "EFLAGS:0x" 16 1 "\r\n" := by decide +kernel
  have h₀ := (hex_le (args.word 0)).1
  have h₁ := (hex_le (args.word 1)).1
  rw [logRight_iff, hp]
  refine ⟨?_, noNulChar_of (by simp)⟩
  simp only [fmtSize_append, fmtSize_labelled]
  have hlen : (literal "EIP:0x").length + (literal "EFLAGS:0x").length +
      2 * (literal "\r\n").length = 19 := by decide
  omega

/-- The labels of the third message. -/
def generalLabels : List String :=
  ["EAX:0x", "EBX:0x", "ECX:0x", "EDX:0x", "EDI:0x", "ESI:0x", "EBP:0x", "ESP:0x"]

theorem fmtSize_general {s : String} (hs : s ∈ generalLabels) (i : Nat) :
    fmtSize args (labelled s 16 i "\r\n") = 8 + numeralSize 16 (itoaValue (args.word i) 16) := by
  have hstart : ∀ s ∈ generalLabels, (literal s).length = 6 := by decide
  have hend : (literal "\r\n").length = 2 := by decide
  rw [fmtSize_labelled, hstart s hs, hend]
  omega

theorem generalFmt_pieces : fmtPieces generalFmt .normal 0 =
    labelled "EAX:0x" 16 0 "\r\n" ++ labelled "EBX:0x" 16 1 "\r\n" ++
      labelled "ECX:0x" 16 2 "\r\n" ++ labelled "EDX:0x" 16 3 "\r\n" ++
      labelled "EDI:0x" 16 4 "\r\n" ++ labelled "ESI:0x" 16 5 "\r\n" ++
      labelled "EBP:0x" 16 6 "\r\n" ++ labelled "ESP:0x" 16 7 "\r\n" := by decide +kernel

theorem generalFmt_size (args : VaArgs) :
    fmtSize args (fmtPieces generalFmt .normal 0) =
      64 + ((List.range 8).map fun i => numeralSize 16 (itoaValue (args.word i) 16)).sum := by
  rw [generalFmt_pieces]
  simp only [fmtSize_append]
  rw [fmtSize_general (by decide), fmtSize_general (by decide), fmtSize_general (by decide),
    fmtSize_general (by decide), fmtSize_general (by decide), fmtSize_general (by decide),
    fmtSize_general (by decide), fmtSize_general (by decide)]
  simp only [List.range, List.range.loop, List.map_cons, List.map_nil, List.sum_cons, List.sum_nil]
  omega

/-- A sum of terms that are at most `b` falls short of the bound if one does. -/
theorem sum_range_lt_iff {f : Nat → Nat} {b : Nat} (hb : ∀ i, f i ≤ b) (n : Nat) :
    ((List.range n).map f).sum ≤ n * b ∧
      (((List.range n).map f).sum < n * b ↔ ∃ i < n, f i < b) := by
  induction n with
  | zero => simp
  | succ n ih =>
    obtain ⟨hle, hlt⟩ := ih
    have hfn := hb n
    rw [List.range_succ, List.map_append, List.sum_append, List.map_singleton, List.sum_singleton,
      Nat.succ_mul]
    refine ⟨by omega, fun h => ?_, ?_⟩
    · by_cases hlast : f n < b
      · exact ⟨n, Nat.lt_succ_self n, hlast⟩
      · obtain ⟨i, hi, hi'⟩ := hlt.mp (by omega)
        exact ⟨i, Nat.lt_succ_of_lt hi, hi'⟩
    · rintro ⟨i, hi, hi'⟩
      rcases Nat.lt_succ_iff_lt_or_eq.mp hi with hi | rfl
      · have := hlt.mpr ⟨i, hi, hi'⟩
        omega
      · omega

/-- Eight numbers of eight digits leave no room for a NUL. -/
theorem generalFmt_right_iff (stack : Int → UInt8) (args : VaArgs) :
    LogRight stack generalFmt args ↔ ∃ i < 8, (args.word i).toNat < 268435456 := by
  have hnul : NoNulChar args (fmtPieces generalFmt .normal 0) := by
    rw [generalFmt_pieces]
    exact noNulChar_of (by simp)
  have hsum := (sum_range_lt_iff (fun i => (hex_le (args.word i)).1) 8).2
  have hshort : ∀ i, numeralSize 16 (itoaValue (args.word i) 16) < 8 ↔
      (args.word i).toNat < 268435456 := fun i => by
    rw [← (hex_le (args.word i)).2]
    omega
  simp only [hshort] at hsum
  rw [logRight_iff, and_iff_left hnul, generalFmt_size, ← hsum]
  omega

theorem callArgs_word {l : List (BitVec 32)} {i : Nat} (h : i < l.length)
    (above : Nat → BitVec 32) (mem : Nat → UInt8) : (callArgs above mem l).word i = l[i] :=
  List.getD_eq_getElem _ _ h

/-- The dump is right exactly if one of the eight registers has a leading zero
in base 16. -/
theorem dumpRight_iff (stack : Int → UInt8) (above : Nat → BitVec 32) (mem : Nat → UInt8)
    (frame : ExceptionFrame) :
    DumpRight stack above mem frame ↔ ∃ r ∈ frame.general, r.toNat < 268435456 := by
  have hgeneral : (∃ r ∈ frame.general, r.toNat < 268435456) ↔
      ∃ i < 8, ((callArgs above mem frame.general).word i).toNat < 268435456 := by
    constructor
    · rintro ⟨r, hr, hlt⟩
      obtain ⟨i, hi, rfl⟩ := List.getElem_of_mem hr
      refine ⟨i, hi, ?_⟩
      rw [callArgs_word hi]
      exact hlt
    · rintro ⟨i, hi, hlt⟩
      have hlen : i < frame.general.length := hi
      rw [callArgs_word hlen] at hlt
      exact ⟨_, List.getElem_mem hlen, hlt⟩
  rw [hgeneral, ← generalFmt_right_iff stack]
  constructor
  · intro h
    exact h (generalFmt, frame.general) (by simp [dumpCoreRegs, ExceptionFrame.general])
  · intro h call hcall
    simp only [dumpCoreRegs, List.mem_cons, List.not_mem_nil, or_false] at hcall
    rcases hcall with rfl | rfl | rfl | rfl
    · exact dump_irq_right _
    · exact dump_segments_right _
    · exact h
    · exact dump_eip_right _

/-- When the messages are right: the dump, where one of eight registers is below
2^28; the message of a task, where its text is shorter than the buffer and no
`%c` puts a NUL into it. -/
theorem log_messages_right_iff (stack : Int → UInt8) (above : Nat → BitVec 32)
    (mem : Nat → UInt8) :
    (∀ frame, DumpRight stack above mem frame ↔ ∃ r ∈ frame.general, r.toNat < 268435456) ∧
      ∀ fmt arg, LogRight stack fmt (callArgs above mem [arg]) ↔
        fmtSize (callArgs above mem [arg]) (fmtPieces fmt .normal 0) ≤ 127 ∧
          NoNulChar (callArgs above mem [arg]) (fmtPieces fmt .normal 0) :=
  ⟨dumpRight_iff stack above mem, fun fmt arg => logRight_iff stack fmt (callArgs above mem [arg])⟩

/-- An exception with every register at 0xFFFFFFFF. -/
def allOnes : ExceptionFrame :=
  let r : BitVec 32 := 0xFFFFFFFF
  ⟨r, r, r, r, r, r, r, r, r, r, r, r, r, r, r, r, r, r, r⟩

/-- Its dump is not right. -/
theorem log_messages_right_iff_ones :
    ¬DumpRight (fun _ => 1) (fun _ => 0) (fun _ => 0) allOnes := by
  rw [dumpRight_iff]
  rintro ⟨r, hr, hlt⟩
  have hones : r = 0xFFFFFFFF := by
    simpa [allOnes, ExceptionFrame.general, ExceptionFrame.dumpedEsp] using hr
  rw [hones] at hlt
  exact absurd hlt (by decide)

end Wjos
