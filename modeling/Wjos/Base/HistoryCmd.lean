/-
Wjos.Base.HistoryCmd — the command history of a console
(kernel/base/history_cmd.c, and `peek_pre_cmd`, `pre_cmd`, `next_cmd` of
kernel/dev/console.c).

Translation notes. `mem` is memory by the byte, counted from `his_cmds` on, so
that a copy that does not fit its entry goes on behind it. An entry is a
`time_t` of eight bytes and `CLI_INPUT_SIZE` characters. A C string is given
by its characters without the NUL (`CStr`). `preCmd` takes the value that its
uninitialised local happens to have as an argument. A caller's array of
pointers and the buffers they point to are memories of their own.
-/
import Mathlib.Logic.Function.Basic
import Wjos.Lib.CInt
import Wjos.Tools.Klib

namespace Wjos

open Lib

def maxSaveCmdsNr : Int := 100
def cliInputSize : Nat := 128

/-- A string, without the NUL that ends it. -/
structure CStr where
  chars : List UInt8
  nonNul : ∀ c ∈ chars, c ≠ 0

/-- The history of a `console_t`. -/
structure CmdHistory where
  hisIdx : Int
  currHisIdx : Int
  mem : Int → UInt8

/-! ## Memory -/

/-- `kernel_memset`. -/
def fill (m : Int → UInt8) (dest : Int) (v : UInt8) (size : Nat) : Int → UInt8 :=
  fun a => if dest ≤ a ∧ a < dest + size then v else m a

/-- `kernel_memcpy` of the characters of a string. -/
def copyChars (m : Int → UInt8) (dest : Int) (src : List UInt8) : Int → UInt8 :=
  fun a => if dest ≤ a ∧ a < dest + src.length then src.getD (a - dest).toNat 0 else m a

/-- Byte `k` of a time. -/
def timeByte (t k : Nat) : UInt8 := UInt8.ofNat (t / 256 ^ k)

/-- `his_cmds[i]`, and its field `cmd`. -/
def entryAt (i : Int) : Int := 136 * i
def cmdAt (i : Int) : Int := entryAt i + 8

/-- A store to the field `time` of entry `i`. -/
def setTime (m : Int → UInt8) (i : Int) (t : Nat) : Int → UInt8 :=
  fun a => if entryAt i ≤ a ∧ a < cmdAt i then timeByte t (a - entryAt i).toNat else m a

/-- `kernel_all_strcmp` on what lies from a pointer on and a string. -/
def kernelAllStrcmp (s₁ : Nat → UInt8) : List UInt8 → Int
  | [] => (s₁ 0).toInt8.toInt
  | c :: s₂ =>
    if s₁ 0 ≠ 0 ∧ s₁ 0 = c then kernelAllStrcmp (fun i => s₁ (i + 1)) s₂
    else (s₁ 0).toInt8.toInt - c.toInt8.toInt

namespace CmdHistory

/-- What lies from `his_cmds[i].cmd` on. -/
def cmd (h : CmdHistory) (i : Int) : Nat → UInt8 := fun k => h.mem (cmdAt i + k)

/-! ## Adding a command -/

/-- `history_command_init`. -/
def historyCommandInit (m : Int → UInt8) (i : Int) : Int → UInt8 :=
  fill (setTime m i 0) (cmdAt i) 0 cliInputSize

/-- The history of a console after `console_init`. -/
def init (m : Int → UInt8) : CmdHistory where
  hisIdx := maxSaveCmdsNr - 1
  currHisIdx := maxSaveCmdsNr - 1
  mem := (List.range maxSaveCmdsNr.toNat).foldl (fun m (i : Nat) => historyCommandInit m i) m

/-- The entry that `peek_pre_cmd` returns. -/
def peekPreCmd (h : CmdHistory) : Int :=
  if h.hisIdx - 1 < 0 then maxSaveCmdsNr - 1 else h.hisIdx - 1

/-- The entry that `add` takes for a command it stores. -/
def newIdx (h : CmdHistory) : Int :=
  if h.hisIdx + 1 = maxSaveCmdsNr then 0 else h.hisIdx + 1

/-- `add` at the time `timep`. -/
def add (h : CmdHistory) (timep : Nat) (cmd : CStr) : CmdHistory :=
  let pre := h.peekPreCmd
  if kernelAllStrcmp (h.cmd pre) cmd.chars = 0 then { h with mem := setTime h.mem pre timep }
  else
    let currHisIdx := h.newIdx
    { hisIdx := currHisIdx
      currHisIdx := -1
      mem := copyChars (setTime (historyCommandInit h.mem currHisIdx) currHisIdx timep)
        (cmdAt currHisIdx) cmd.chars }

/-! ## Walking through the commands -/

/-- `pre_cmd`: the console and the entry read. `garbage` is the local
`curr_his_idx`, which the first branch does not set. -/
def preCmd (h : CmdHistory) (garbage : Int) : CmdHistory × Int :=
  let (h, currHisIdx) :=
    if h.currHisIdx = -1 then ({ h with currHisIdx := h.hisIdx }, garbage)
    else ({ h with currHisIdx := h.currHisIdx - 1 }, h.currHisIdx - 1)
  let (h, currHisIdx) :=
    if h.currHisIdx < 0 then ({ h with currHisIdx := maxSaveCmdsNr - 1 }, maxSaveCmdsNr - 1)
    else (h, currHisIdx)
  if h.cmd currHisIdx 0 = 0 then
    let back := h.currHisIdx + 1
    ({ h with currHisIdx := if back = maxSaveCmdsNr then 0 else back }, currHisIdx)
  else (h, currHisIdx)

/-- `next_cmd`: the console and the entry read. -/
def nextCmd (h : CmdHistory) : CmdHistory × Int :=
  let currHisIdx := h.currHisIdx + 1
  let currHisIdx := if currHisIdx = maxSaveCmdsNr then 0 else currHisIdx
  let h : CmdHistory := { h with currHisIdx := currHisIdx }
  if h.cmd currHisIdx 0 = 0 then
    let back := h.currHisIdx - 1
    ({ h with currHisIdx := if back = 0 then maxSaveCmdsNr - 1 else back }, currHisIdx)
  else (h, currHisIdx)

/-! ## Copying the commands out -/

/-- `history_count`. -/
def historyCount (h : CmdHistory) : Int :=
  if h.cmd (maxSaveCmdsNr - 1) 0 ≠ 0 then maxSaveCmdsNr
  else if h.hisIdx = maxSaveCmdsNr - 1 then 0 else h.hisIdx + 1

/-- `head` of `sys_get_history`: the oldest entry. -/
def historyHead (h : CmdHistory) : Int :=
  if h.cmd (maxSaveCmdsNr - 1) 0 ≠ 0 then
    if h.hisIdx + 1 = maxSaveCmdsNr then 0 else h.hisIdx + 1
  else 0

/-- `kernel_strlen` on the characters of an entry; `n` of them are left. -/
def kernelStrlen (s : Nat → UInt8) : (n : Nat) → Nat
  | 0 => 0
  | n + 1 => if s 0 = 0 then 0 else kernelStrlen (fun i => s (i + 1)) n + 1

/-- `kernel_strncpy` of a whole entry to the address `dest` of the caller. -/
def copyOut (user : Nat → UInt8) (dest : Nat) (src : Nat → UInt8) : Nat → UInt8 :=
  if dest = 0 then user
  else fun a =>
    if dest ≤ a then
      kernelStrncpy (fun k => user (dest + k)) src (kernelStrlen src cliInputSize) (a - dest)
    else user a

/-- `sys_get_history`: the caller's pointers and buffers after the call.
`sizeof(cmds)` is that of a pointer, so that the clearing sets the first one to
null. -/
def sysGetHistory (h : CmdHistory) (cmds : Nat → Nat) (user : Nat → UInt8) :
    (Nat → Nat) × (Nat → UInt8) :=
  let cnt := h.historyCount
  let cmds := Function.update cmds 0 0
  let head := h.historyHead
  if head = 0 then
    (cmds, (List.range cnt.toNat).foldl (fun m (i : Nat) => copyOut m (cmds i) (h.cmd i)) user)
  else
    let tail := (maxSaveCmdsNr - head).toNat
    let user := (List.range tail).foldl
      (fun m (s : Nat) => copyOut m (cmds s) (h.cmd (head + s))) user
    (cmds, (List.range head.toNat).foldl
      (fun m (i : Nat) => copyOut m (cmds (tail + i)) (h.cmd i)) user)

end CmdHistory

end Wjos
