/-
Wjos.Shell.CmdExecutor — how the shell finds the program to run
(`find_exec_path` and `exec` of shell/cmd_executor.c).

`find_exec_path` has a static buffer, which it fills when the command cannot be
opened under its own name, and which it returns in any case. So a command that
can be opened runs what the buffer happens to hold: the last name that could
not be opened with `.elf` behind it (`pathAfter_eq`), or nothing in a new
shell. `exec_right_iff` says for which sequences of commands that is the
program that was named.

A command comes with the files that can be opened when it is entered, by name.
The names of commands are shorter than 128 characters, the buffer has 255.
-/
import Mathlib.Data.List.Induction
import Wjos.Tools.Itoa

namespace Wjos.Shell

/-- The names in `cmd_list`. -/
def cmdList : List (List UInt8) :=
  ["help", "clear", "echo", "exit", "ls", "ll", "less", "cp", "rm", "cat", "date", "reboot",
    "touch", "history"].map literal

/-- `find_builtin`. -/
def findBuiltin (name : List UInt8) : Option (List UInt8) := cmdList.find? (· = name)

/-- What `sprintf(path, "%s.elf", filename)` writes. -/
def withElf (filename : List UInt8) : List UInt8 := filename ++ literal ".elf"

/-- `find_exec_path`: what the static buffer `path` holds, and what is
returned. -/
def findExecPath (opens : List UInt8 → Bool) (path filename : List UInt8) :
    List UInt8 × Option (List UInt8) :=
  if opens filename then (path, some path)
  else if opens (withElf filename) then (withElf filename, some (withElf filename))
  else (withElf filename, none)

/-- `exec`: the buffer, and the path that `run_exec_file` is called with. -/
def exec (opens : List UInt8 → Bool) (path argv0 : List UInt8) :
    List UInt8 × Option (List UInt8) :=
  match findBuiltin argv0 with
  | some _ => (path, none)
  | none => findExecPath opens path argv0

/-- A command that is entered. -/
structure Command where
  name : List UInt8
  opens : List UInt8 → Bool

/-- The buffer after some commands; it is static, so it is empty at first. -/
def pathAfter (cmds : List Command) : List UInt8 :=
  cmds.foldl (fun path c => (exec c.opens path c.name).1) []

/-- The program that a command names. -/
def Command.named (c : Command) : Option (List UInt8) :=
  if c.opens c.name then some c.name
  else if c.opens (withElf c.name) then some (withElf c.name)
  else none

/-- The command is dispatched after others as it should be. -/
def ExecRight (before : List Command) (c : Command) : Prop :=
  findBuiltin c.name = none → (exec c.opens (pathAfter before) c.name).2 = c.named

/-- The command is not a built-in one, and there is no file of its name. -/
def Command.missing (c : Command) : Bool := (findBuiltin c.name).isNone && !c.opens c.name

/-- The name that the last missing command left behind. -/
def leftBehind (cmds : List Command) : List UInt8 :=
  match cmds.reverse.find? Command.missing with
  | some c => withElf c.name
  | none => []

/-- A program is run for a command that is not built in if there is a file. -/
theorem exec_some_iff (opens : List UInt8 → Bool) (path name : List UInt8) :
    (∃ p, (exec opens path name).2 = some p) ↔
      findBuiltin name = none ∧ (opens name ∨ opens (withElf name)) := by
  rw [exec]
  cases findBuiltin name with
  | some b => simp
  | none =>
    rw [findExecPath]
    by_cases hopen : opens name
    · simp [hopen]
    · by_cases helf : opens (withElf name) <;> simp [hopen, helf]

/-! ## The buffer -/

/-- One command changes the buffer if it is missing. -/
theorem exec_path (opens : List UInt8 → Bool) (path name : List UInt8) :
    (exec opens path name).1 =
      if (Command.mk name opens).missing then withElf name else path := by
  rw [exec, Command.missing]
  cases findBuiltin name with
  | some b => simp
  | none =>
    rw [findExecPath]
    by_cases hopen : opens name
    · simp [hopen]
    · by_cases helf : opens (withElf name) <;> simp [hopen, helf]

/-- After any commands it holds what the last missing one left behind. -/
theorem pathAfter_eq (cmds : List Command) : pathAfter cmds = leftBehind cmds := by
  induction cmds using List.reverseRecOn with
  | nil => rfl
  | append_singleton cmds c ih =>
    rw [pathAfter, List.foldl_concat, ← pathAfter, ih, exec_path, leftBehind, leftBehind,
      List.reverse_append, List.reverse_singleton, List.singleton_append, List.find?_cons]
    by_cases hm : c.missing
    · rw [if_pos hm, hm]
    · rw [if_neg hm, Bool.eq_false_iff.mpr hm]

/-- A command that is not built in runs the program it names, unless it can be
opened and the buffer holds another name. -/
theorem execRight_iff (before : List Command) (c : Command) :
    ExecRight before c ↔
      (findBuiltin c.name = none → c.opens c.name → leftBehind before = c.name) := by
  refine imp_congr_right fun hbuiltin => ?_
  rw [exec, hbuiltin, findExecPath, Command.named, ← pathAfter_eq]
  by_cases hopen : c.opens c.name
  · simp [hopen]
  · by_cases helf : c.opens (withElf c.name) <;> simp [hopen, helf]

/-- In a sequence of commands every program that is run is the one that was
named, exactly if no command that can be opened under its own name comes when
the last missing one has left another name behind. -/
theorem exec_right_iff (cmds : List Command) :
    (∀ before c after, cmds = before ++ c :: after → ExecRight before c) ↔
      ∀ before c after, cmds = before ++ c :: after → findBuiltin c.name = none →
        c.opens c.name → leftBehind before = c.name :=
  forall₃_congr fun before c _ => imp_congr_right fun _ => execRight_iff before c

/-- `a.elf`, which is there, is entered after `b`, for which there is `b.elf`:
the shell runs `b.elf`. -/
theorem exec_right_iff_stale :
    let opens : List UInt8 → Bool := fun f => f = literal "a.elf" || f = literal "b.elf"
    let b : Command := ⟨literal "b", opens⟩
    let a : Command := ⟨literal "a.elf", opens⟩
    (exec opens (pathAfter [b]) a.name).2 = some (literal "b.elf") ∧
      ¬∀ before c after, [b, a] = before ++ c :: after → ExecRight before c := by
  intro opens b a
  have hrun : (exec opens (pathAfter [b]) a.name).2 = some (literal "b.elf") := by decide
  refine ⟨hrun, fun h => ?_⟩
  have hright := h [b] a [] rfl (by decide)
  have hnamed : a.named = some (literal "a.elf") := by decide
  rw [hnamed, show a.opens = opens from rfl, hrun] at hright
  exact absurd hright (by decide)

end Wjos.Shell
