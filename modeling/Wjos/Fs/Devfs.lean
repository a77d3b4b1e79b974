/-
Wjos.Fs.Devfs — `devfs_open` of `kernel/fs/devfs/devfs.c`: which paths it
takes for a device.

`driver major minor` is what the driver of a device answers to its `open`,
`stack` what the frame of `devfs_open` holds where it declares `minor`
without a value. `file` is the `file_t` before the call; the model has the
fields that `devfs_open` stores.

Every path to the end of the function is a `return 0`, so the call is right
about a path exactly when the path names a device that opens
(`devfs_open_iff`). For any other path it answers 0 all the same: the empty
path, `t` and `tt` compare equal to `tty` and open the device that `stack`
happens to name, and `tty9x` opens whatever number its digits and letters add
up to.
-/
import Wjos.Dev.Dev
import Wjos.Fs.Fatfs.Fatfs
import Wjos.Fs.Path

namespace Wjos

open Lib

/-! ## The call -/

/-- `devfs_type_t`. -/
structure DevfsType where
  name : List UInt8
  devType : Int
  fileType : FileType
  deriving DecidableEq, Repr

/-- The entry of `dev_type_list`: `tty`, `DEV_TTY`, `FILE_TTY`. -/
def devTty : DevfsType where
  name := [116, 116, 121]
  devType := 1
  fileType := .tty

/-- `dev_type_list`. -/
def devTypeList : List DevfsType := [devTty]

/-- The fields of `file_t` that `devfs_open` stores. -/
structure DevfsFile where
  devId : Int
  fs : Nat
  pos : Nat
  size : Nat
  type : FileType
  deriving DecidableEq, Repr

/-- What the call finds: the device table, the drivers, the frame. -/
structure DevfsEnv where
  tbl : DevTbl
  driver : (major minor : Int) → Int
  stack : Int

/-- `dev_open` in this environment. -/
def DevfsEnv.devOpen (env : DevfsEnv) (major minor : Int) : DevTbl × Int × Option Nat :=
  Wjos.devOpen env.tbl major minor (env.driver major minor)

/-- The number after the name, and the result of `path_to_num` if it is
called. -/
def devfsMinor (env : DevfsEnv) (path name : List UInt8) : Int × Int :=
  if path.length > name.length then pathToNum (path.drop name.length) else (env.stack, 0)

/-- The loop of `devfs_open`. -/
def devfsOpenLoop (env : DevfsEnv) (fs : Nat) (path : List UInt8) (file : DevfsFile) :
    List DevfsType → DevTbl × DevfsFile × Int
  | [] => (env.tbl, file, 0)
  | type :: types =>
    if kernelStrcmp path type.name type.name.length = 0 then
      let (minor, err) := devfsMinor env path type.name
      if err < 0 then (env.tbl, file, 0)
      else
        let (tbl, devId, _) := env.devOpen type.devType minor
        (tbl, { devId := devId, fs := fs, pos := 0, size := 0, type := type.fileType }, 0)
    else devfsOpenLoop env fs path file types

/-- `devfs_open`: the device table, the file and the result. -/
def devfsOpen (env : DevfsEnv) (fs : Nat) (path : List UInt8) (file : DevfsFile) :
    DevTbl × DevfsFile × Int := devfsOpenLoop env fs path file devTypeList

/-- No path is refused. -/
theorem devfsOpen_ret (env : DevfsEnv) (fs : Nat) (path : List UInt8) (file : DevfsFile) :
    (devfsOpen env fs path file).2.2 = 0 := by
  unfold devfsOpen
  induction devTypeList with
  | nil => rfl
  | cons type types ih =>
    rw [devfsOpenLoop]
    split
    · dsimp only
      split <;> rfl
    · exact ih

/-! ## Device names -/

/-- The number that decimal digits stand for, after `n`. -/
def decimal : List UInt8 → (n : Nat) → Nat
  | [], n => n
  | c :: digits, n => decimal digits (n * 10 + (c.toNat - 48))

/-- `path` is the name of the device `n` of the type. -/
def IsDeviceName (type : DevfsType) (path : List UInt8) (n : Nat) : Prop :=
  ∃ digits, path = type.name ++ digits ∧ digits ≠ [] ∧ (∀ c ∈ digits, 48 ≤ c ∧ c ≤ 57) ∧
    decimal digits 0 = n ∧ (n : Int) ≤ intMax

theorem le_decimal (digits : List UInt8) (n : Nat) : n ≤ decimal digits n := by
  induction digits generalizing n with
  | nil => exact Nat.le_refl n
  | cons c digits ih => exact Nat.le_trans (by omega) (ih _)

/-- The sum of digits that fits an `int` is that number. -/
theorem pathToNumLoop_digits {digits : List UInt8} (hd : ∀ c ∈ digits, 48 ≤ c ∧ c ≤ 57) {n : Nat}
    (hmax : (decimal digits n : Int) ≤ intMax) : pathToNumLoop digits n = decimal digits n := by
  induction digits generalizing n with
  | nil => rfl
  | cons c digits ih =>
    obtain ⟨hlo, hhi⟩ := hd c List.mem_cons_self
    have hlo : 48 ≤ c.toNat := UInt8.le_iff_toNat_le.mp hlo
    have hhi : c.toNat ≤ 57 := UInt8.le_iff_toNat_le.mp hhi
    have hc : c.toInt8.toInt = c.toNat := by
      rw [Int8.toInt, UInt8.toBitVec_toInt8, BitVec.toInt_eq_toNat_of_lt]
      · rfl
      · change 2 * c.toNat < 256
        omega
    rw [decimal] at hmax ⊢
    have hle := le_decimal digits (n * 10 + (c.toNat - 48))
    have hstep : cInt ((n : Int) * 10 + c.toInt8.toInt - 48) =
        ((n * 10 + (c.toNat - 48) : Nat) : Int) := by
      rw [hc, cInt_eq (by omega) (by omega)]
      omega
    rw [pathToNumLoop, hstep]
    exact ih (fun d h => hd d (List.mem_cons_of_mem c h)) hmax

/-! ## Opening a device -/

/-- `dev_open` of the device gives an open entry: the count of the first one
that is open for it does not wrap to 0, or the driver opens it on a free
one. -/
def DevfsEnv.Opens (env : DevfsEnv) (major minor : Int) : Prop :=
  match findSlot (fun j => (env.tbl j).isOpen major minor) devTableSize 0 with
  | some i => cInt ((env.tbl i).openCount + 1) ≠ 0
  | none => env.driver major minor = 0 ∧ ∃ i < devTableSize, (env.tbl i).openCount = 0

/-- A scan that finds no open entry of the device remembers a free one. -/
theorem devScan_free {tbl : DevTbl} {major minor : Int} {n i j : Nat} {freeDev : Option Nat}
    (hfst : (devScan tbl major minor n i freeDev).1 = none)
    (hj : freeDev.isSome ∨ (i ≤ j ∧ j < i + n ∧ (tbl j).openCount = 0)) :
    (devScan tbl major minor n i freeDev).2.isSome := by
  induction n generalizing i freeDev with
  | zero =>
    rcases hj with hj | hj
    · exact hj
    · omega
  | succ n ih =>
    rw [devScan] at hfst ⊢
    split
    next hcount =>
      rw [if_pos hcount] at hfst
      exact ih hfst (.inl rfl)
    next hcount =>
      rw [if_neg hcount] at hfst
      split
      next hkey =>
        rw [if_pos hkey] at hfst
        cases hfst
      next hkey =>
        rw [if_neg hkey] at hfst
        refine ih hfst (hj.imp_right fun h => ⟨?_, by omega, h.2.2⟩)
        by_contra hlt
        exact hcount ((show j = i by omega) ▸ h.2.2)

/-- When `dev_open` of a known kind of device gives an open entry. -/
theorem DevfsEnv.opens_iff (env : DevfsEnv) {major minor : Int} (hmajor : major ∈ devDescTbl) :
    env.Opens major minor ↔ ∃ i < devTableSize, (env.devOpen major minor).2.1 = (i : Int) ∧
      ((env.devOpen major minor).1 i).isOpen major minor := by
  have hfst : (devScan env.tbl major minor devTableSize 0 none).1 =
      findSlot (fun j => (env.tbl j).isOpen major minor) devTableSize 0 := devScan_fst ..
  have hdesc : devDescTbl.find? (· = major) = some major := by
    rcases List.mem_cons.mp hmajor with rfl | hmajor
    · rfl
    · rcases List.mem_cons.mp hmajor with rfl | hmajor
      · rfl
      · cases hmajor
  unfold DevfsEnv.Opens DevfsEnv.devOpen Wjos.devOpen
  cases hscan : devScan env.tbl major minor devTableSize 0 none with
  | mk found freeDev =>
    rw [hscan] at hfst
    cases found with
    | some i =>
      obtain ⟨hp, -, hi⟩ := findSlot_eq_some hfst.symm
      simp only [Device.isOpen, ne_eq, decide_not, Bool.and_eq_true, decide_eq_true_eq] at hp
      obtain ⟨⟨-, hd⟩, hm⟩ := hp
      rw [← hfst]
      dsimp only
      constructor
      · intro hcount
        exact ⟨i, by omega, rfl, by simp [Device.isOpen, hcount, hd, hm]⟩
      · rintro ⟨j, -, hj, hopen⟩ hcount
        obtain rfl : i = j := Int.ofNat.inj hj
        simp [Device.isOpen, hcount] at hopen
    | none =>
      rw [← hfst]
      dsimp only
      rw [hdesc]
      have hfree : freeDev.isSome ↔ ∃ i < devTableSize, (env.tbl i).openCount = 0 := by
        constructor
        · intro hsome
          obtain ⟨f, hf⟩ := Option.isSome_iff_exists.mp hsome
          have hsnd := devScan_snd (f := f) (by rw [hscan]; exact hf)
          obtain ⟨hcount, hlt⟩ : (env.tbl f).openCount = 0 ∧ f < 0 + devTableSize := by
            simpa using hsnd
          exact ⟨f, by omega, hcount⟩
        · rintro ⟨j, hj, hcount⟩
          have hsome := devScan_free (j := j) (congrArg Prod.fst hscan)
            (.inr ⟨Nat.zero_le j, by omega, hcount⟩)
          rwa [hscan] at hsome
      rw [← hfree]
      cases freeDev with
      | none => simp
      | some f =>
        have hf : f < devTableSize := by
          have hsnd := devScan_snd (f := f) (by rw [hscan])
          have : (env.tbl f).openCount = 0 ∧ f < 0 + devTableSize := by simpa using hsnd
          omega
        dsimp only
        by_cases herr : env.driver major minor = 0
        · rw [if_pos herr]
          refine iff_of_true ⟨herr, rfl⟩ ⟨f, hf, rfl, ?_⟩
          simp [Device.isOpen]
        · rw [if_neg herr]
          refine iff_of_false (fun h => herr h.1) ?_
          rintro ⟨j, -, hj, -⟩
          dsimp only at hj
          omega

/-- `devfs_open` returns 0 on a device name whose device opens, and then the
file has the id of an open entry for it; on any other path it returns a
negative value and opens nothing. -/
structure DevfsOpenSound (env : DevfsEnv) (fs : Nat) (path : List UInt8) (file : DevfsFile) :
    Prop where
  accepts : (devfsOpen env fs path file).2.2 = 0 ↔
    ∃ type ∈ devTypeList, ∃ n : Nat, IsDeviceName type path n ∧
      0 ≤ (env.devOpen type.devType n).2.1
  device : (devfsOpen env fs path file).2.2 = 0 → ∀ type ∈ devTypeList, ∀ n : Nat,
    IsDeviceName type path n → ∃ i < devTableSize,
      (devfsOpen env fs path file).2.1.devId = i ∧
        ((devfsOpen env fs path file).1 i).isOpen type.devType n
  rejects : (devfsOpen env fs path file).2.2 ≠ 0 → (devfsOpen env fs path file).2.2 < 0 ∧
    ∀ i, ((devfsOpen env fs path file).1 i).openCount = (env.tbl i).openCount

/-- What the call does with a device name. -/
theorem devfsOpen_of_name {env : DevfsEnv} {fs : Nat} {path : List UInt8} {file : DevfsFile}
    {n : Nat} (h : IsDeviceName devTty path n) :
    (devfsOpen env fs path file).1 = (env.devOpen 1 n).1 ∧
      (devfsOpen env fs path file).2.1.devId = (env.devOpen 1 n).2.1 := by
  obtain ⟨digits, rfl, hne, hdigits, rfl, hmax⟩ := h
  have hcmp : kernelStrcmp (devTty.name ++ digits) devTty.name devTty.name.length = 0 :=
    (kernelStrcmp_eq_zero (by decide)).mpr (.inr (List.prefix_append _ _))
  have hnum : pathToNumLoop digits 0 = decimal digits 0 := pathToNumLoop_digits hdigits hmax
  have hlen : (devTty.name ++ digits).length > devTty.name.length := by
    have := List.length_pos_of_ne_nil hne
    rw [List.length_append]
    omega
  have hminor : devfsMinor env (devTty.name ++ digits) devTty.name =
      ((decimal digits 0 : Int), 0) := by
    rw [devfsMinor, if_pos hlen, List.drop_left, pathToNum, hnum]
  rw [devfsOpen, devTypeList, devfsOpenLoop, if_pos hcmp, hminor]
  exact ⟨rfl, rfl⟩

/-- A path names one device of a type. -/
theorem IsDeviceName.unique {type : DevfsType} {path : List UInt8} {m n : Nat}
    (hm : IsDeviceName type path m) (hn : IsDeviceName type path n) : m = n := by
  obtain ⟨digits, rfl, -, -, rfl, -⟩ := hm
  obtain ⟨digits', heq, -, -, rfl, -⟩ := hn
  rw [List.append_cancel_left heq]

/-- The call is right about a path exactly when the path names a device
that opens. -/
theorem devfs_open_iff (env : DevfsEnv) (fs : Nat) (path : List UInt8) (file : DevfsFile) :
    DevfsOpenSound env fs path file ↔
      ∃ type ∈ devTypeList, ∃ n : Nat, IsDeviceName type path n ∧ env.Opens type.devType n := by
  have hret := devfsOpen_ret env fs path file
  constructor
  · intro h
    obtain ⟨type, htype, n, hname, -⟩ := h.accepts.mp hret
    refine ⟨type, htype, n, hname, ?_⟩
    obtain ⟨i, hi, hid, hopen⟩ := h.device hret type htype n hname
    obtain rfl := List.mem_singleton.mp htype
    obtain ⟨htbl, hdev⟩ := @devfsOpen_of_name env fs path file _ hname
    rw [htbl] at hopen
    rw [hdev] at hid
    exact (env.opens_iff (by decide)).mpr ⟨i, hi, hid, hopen⟩
  · rintro ⟨type, htype, n, hname, hopens⟩
    obtain rfl := List.mem_singleton.mp htype
    obtain ⟨i, hi, hid, hopen⟩ := (env.opens_iff (by decide)).mp hopens
    refine ⟨?_, ?_, fun h => absurd hret h⟩
    · refine iff_of_true hret ⟨devTty, htype, n, hname, ?_⟩
      rw [hid]
      exact Int.natCast_nonneg i
    · intro _ type' htype' n' hname'
      obtain rfl := List.mem_singleton.mp htype'
      obtain rfl := hname.unique hname'
      obtain ⟨htbl, hdev⟩ := @devfsOpen_of_name env fs path file _ hname
      rw [htbl, hdev]
      exact ⟨i, hi, hid, hopen⟩

/-- With nothing open and a driver that opens the screen with the number
7, the path `tt` is accepted. -/
theorem device_name_start_accepted :
    ¬DevfsOpenSound ⟨fun _ => Device.zero, fun _ _ => 0, 7⟩ 0 [116, 116]
      ⟨0, 0, 0, 0, .unknown⟩ := by
  intro h
  obtain ⟨type, htype, n, ⟨digits, hpath, hne, -⟩, -⟩ :=
    h.accepts.mp (devfsOpen_ret ..)
  obtain rfl := List.mem_singleton.mp htype
  have hlen := congrArg List.length hpath
  simp [devTty] at hlen

end Wjos
