/-
Wjos.Fs.Path — the path strings of `kernel/fs/fs.c` and how `sys_open` and
`sys_unlink` find the file system of a path.

A string is the list of its characters, without the NUL that ends it.
`openTarget` and `unlinkTarget` are what the two calls hand to a file system:
the file system and the name, which is no string at all where
`path_next_child` returns a null pointer. `Resolves` is the rule that both
are meant to follow: a mount point counts when the path goes on after it with
a slash or not at all.

`sys_open` tests for a plain prefix and `sys_unlink` for none, so the two
agree on the rule for the paths that no mount point is a prefix of, and on no
others (`path_resolution_iff`).
-/
import Wjos.Lib.CInt
import Wjos.Tools.Klib

namespace Wjos

open Lib

/-! ## Path strings -/

/-- The loop of `path_to_num`. The sum of an `int` wraps; a `char` is
signed. -/
def pathToNumLoop : List UInt8 → (n : Int) → Int
  | [], n => n
  | c :: path, n => pathToNumLoop path (cInt (n * 10 + c.toInt8.toInt - 48))

/-- `path_to_num`: `*num` and the result. -/
def pathToNum (path : List UInt8) : Int × Int := (pathToNumLoop path 0, 0)

/-- The first loop of `path_next_child`: it also passes the first character
that is no slash. -/
def pathSkipSlashes : List UInt8 → List UInt8
  | [] => []
  | c :: path => if c = 47 then pathSkipSlashes path else path

/-- The second loop of `path_next_child`. -/
def pathSkipName : List UInt8 → List UInt8
  | [] => []
  | c :: path => if c ≠ 47 then pathSkipName path else path

/-- `path_next_child`; `none` is the null pointer. -/
def pathNextChild (path : List UInt8) : Option (List UInt8) :=
  let c := pathSkipName (pathSkipSlashes path)
  if c = [] then none else some c

/-- `path_begin_with`. -/
def pathBeginWith : List UInt8 → List UInt8 → Bool
  | _, [] => true
  | [], _ :: _ => false
  | s₁ :: path, s₂ :: str => if s₁ = s₂ then pathBeginWith path str else false

theorem pathBeginWith_iff {path str : List UInt8} : pathBeginWith path str ↔ str <+: path := by
  induction str generalizing path with
  | nil => simp [pathBeginWith]
  | cons s₂ str ih =>
    cases path with
    | nil => simp [pathBeginWith]
    | cons s₁ path =>
      rw [pathBeginWith]
      split
      next h => rw [ih, h, List.prefix_cons_inj]
      next h => simp [List.cons_prefix_cons, Ne.symm h]

theorem pathSkipName_append {name rest : List UInt8} (h : 47 ∉ name) :
    pathSkipName (name ++ 47 :: rest) = rest := by
  induction name with
  | nil => rfl
  | cons c name ih =>
    obtain ⟨hc, hname⟩ := not_or.mp (mt List.mem_cons.mpr h)
    rw [List.cons_append, pathSkipName, if_pos (Ne.symm hc), ih hname]

theorem pathSkipSlashes_length (path : List UInt8) :
    (pathSkipSlashes path).length ≤ path.length - 1 := by
  induction path with
  | nil => rfl
  | cons c path ih =>
    rw [pathSkipSlashes]
    split
    · simp only [List.length_cons]
      omega
    · simp

theorem pathSkipName_length (path : List UInt8) : (pathSkipName path).length ≤ path.length := by
  induction path with
  | nil => rfl
  | cons c path ih =>
    rw [pathSkipName]
    split
    · simp only [List.length_cons]
      omega
    · simp

/-- The child of a path is no longer the path. -/
theorem pathNextChild_ne (path : List UInt8) : pathNextChild path ≠ some path := by
  intro h
  unfold pathNextChild at h
  dsimp only at h
  split at h
  · cases h
  next hne =>
    have hskip := pathSkipName_length (pathSkipSlashes path)
    have hslash := pathSkipSlashes_length path
    rw [Option.some.inj h] at hskip hne
    have hpos := List.length_pos_of_ne_nil hne
    omega

/-! ## The file system of a path -/

/-- An entry of `mounted_list`: `mount_point`, and which file system it is. -/
structure MountedFs where
  mountPoint : List UInt8
  fs : Nat
  deriving DecidableEq, Repr

/-- The file system and the name that a call hands on. -/
structure FsTarget where
  fs : Nat
  name : Option (List UInt8)
  deriving DecidableEq, Repr

/-- The part of `sys_open` that finds the file system; `rootFs` is
`root_fs`. -/
def openTarget (mountedList : List MountedFs) (rootFs : Nat) (name : List UInt8) : FsTarget :=
  match mountedList.find? fun curr => pathBeginWith name curr.mountPoint with
  | some fs => { fs := fs.fs, name := pathNextChild name }
  | none => { fs := rootFs, name := some name }

/-- The file system and the name of `sys_unlink`. -/
def unlinkTarget (rootFs : Nat) (path : List UInt8) : FsTarget :=
  { fs := rootFs, name := some path }

/-- `path` is below the mount point `m`, or is the mount point. -/
def AtBoundary (m path : List UInt8) : Prop := path = m ∨ ∃ rest, path = m ++ 47 :: rest

/-- The rule for a path: `none` where there is nothing to hand on. -/
inductive Resolves (mountedList : List MountedFs) (rootFs : Nat) (path : List UInt8) :
    Option FsTarget → Prop where
  | below (m : MountedFs) (hm : m ∈ mountedList) (rest : List UInt8)
      (hpath : path = m.mountPoint ++ 47 :: rest) (hrest : rest ≠ []) :
      Resolves mountedList rootFs path (some { fs := m.fs, name := some rest })
  | nothing (m : MountedFs) (hm : m ∈ mountedList)
      (hpath : path = m.mountPoint ∨ path = m.mountPoint ++ [47]) :
      Resolves mountedList rootFs path none
  | root (hnone : ∀ m ∈ mountedList, ¬AtBoundary m.mountPoint path) :
      Resolves mountedList rootFs path (some { fs := rootFs, name := some path })

/-- Both calls follow the rule, to the same target. -/
def PathResolution (mountedList : List MountedFs) (rootFs : Nat) (path : List UInt8) : Prop :=
  ∃ target, Resolves mountedList rootFs path target ∧
    some (openTarget mountedList rootFs path) = target ∧ some (unlinkTarget rootFs path) = target

theorem openTarget_unmounted {mountedList : List MountedFs} {rootFs : Nat} {path : List UInt8}
    (h : ∀ m ∈ mountedList, ¬m.mountPoint <+: path) :
    openTarget mountedList rootFs path = unlinkTarget rootFs path := by
  have hfind : (mountedList.find? fun curr => pathBeginWith path curr.mountPoint) = none :=
    List.find?_eq_none.mpr fun m hm hb => h m hm (pathBeginWith_iff.mp hb)
  rw [openTarget, hfind]
  rfl

/-- Where a mount point is a prefix, `sys_open` hands on a shorter name than
`sys_unlink`, or none. -/
theorem openTarget_mounted {mountedList : List MountedFs} {rootFs : Nat} {path : List UInt8}
    {m : MountedFs} (hm : m ∈ mountedList) (h : m.mountPoint <+: path) :
    openTarget mountedList rootFs path ≠ unlinkTarget rootFs path := by
  intro he
  have hfind : (mountedList.find? fun curr => pathBeginWith path curr.mountPoint).isSome :=
    List.find?_isSome.mpr ⟨m, hm, pathBeginWith_iff.mpr h⟩
  obtain ⟨first, hfirst⟩ := Option.isSome_iff_exists.mp hfind
  rw [openTarget, hfirst] at he
  exact pathNextChild_ne path (congrArg FsTarget.name he)

/-- What `sys_open` does right: below a mount point of one component that
comes first, it hands on the rest of the path. -/
theorem openTarget_below {mountedList : List MountedFs} {rootFs : Nat} {name rest : List UInt8}
    {c : UInt8} {m : MountedFs} (hm : m.mountPoint = 47 :: c :: name) (hslash : 47 ∉ c :: name)
    (hrest : rest ≠ [])
    (hfirst : (mountedList.find? fun curr =>
      pathBeginWith (m.mountPoint ++ 47 :: rest) curr.mountPoint) = some m) :
    openTarget mountedList rootFs (m.mountPoint ++ 47 :: rest) =
      { fs := m.fs, name := some rest } := by
  obtain ⟨hc, hname⟩ := not_or.mp (mt List.mem_cons.mpr hslash)
  have hchild : pathNextChild (m.mountPoint ++ 47 :: rest) = some rest := by
    rw [pathNextChild, hm, List.cons_append, pathSkipSlashes, if_pos rfl, List.cons_append,
      pathSkipSlashes, if_neg (Ne.symm hc), pathSkipName_append hname, if_neg hrest]
  rw [openTarget, hfirst, hchild]

/-- The two calls follow the rule exactly on the paths that no mount point is
a prefix of. -/
theorem path_resolution_iff (mountedList : List MountedFs) (rootFs : Nat) (path : List UInt8) :
    PathResolution mountedList rootFs path ↔ ∀ m ∈ mountedList, ¬m.mountPoint <+: path := by
  constructor
  · rintro ⟨target, -, hopen, hunlink⟩ m hm hpre
    rw [← hunlink] at hopen
    exact openTarget_mounted hm hpre (Option.some.inj hopen)
  · intro h
    have hboundary : ∀ m ∈ mountedList, ¬AtBoundary m.mountPoint path := by
      rintro m hm (hpath | ⟨rest, hpath⟩)
      · exact h m hm (hpath ▸ List.prefix_rfl)
      · exact h m hm (hpath ▸ List.prefix_append _ _)
    exact ⟨some (unlinkTarget rootFs path), .root hboundary,
      congrArg some (openTarget_unmounted h), rfl⟩

/-- With `/home` mounted as the root file system, `sys_open` looks for `a`
in `/home/a`, and `sys_unlink` for `/home/a`. -/
theorem home_path_resolves_twice :
    ¬PathResolution [⟨[47, 100, 101, 118], 0⟩, ⟨[47, 104, 111, 109, 101], 1⟩] 1
      [47, 104, 111, 109, 101, 47, 97] := by
  rintro ⟨target, -, hopen, hunlink⟩
  rw [← hunlink] at hopen
  exact absurd hopen (by decide)

end Wjos
