/-
Wjos.Dev.Dev — the device table of `kernel/dev/dev.c`: `dev_open`,
`dev_close` and `is_devid_bad`.

An entry of `dev_tbl` holds its descriptor by the major number, which is
unique in `dev_desc_tbl`, and leaves out `mode`, which nothing uses, and
`data`, which only the drivers do. What a driver's `open` answers is the
parameter `err` of `devOpen`. Both functions tell on which entry they called
the driver. Interrupts are off in them, so each is one step.

`DevUse` has the opens that have not been matched by a close beside the
table, and a step closes only what is open. `DevInv` ties the two together.
`open_count` is an `int`: all this is for runs that do not open a device whose
count is `INT_MAX` once more (`RoomToOpen`).
-/
import Wjos.Lib.CInt
import Wjos.Lib.Run
import Wjos.Lib.Search

namespace Wjos

open Lib

/-- `DEV_TABLE_SIZE`. -/
def devTableSize : Nat := 128

/-- `device_t`. -/
structure Device where
  desc : Option Int
  minor : Int
  openCount : Int
  deriving DecidableEq, Repr

/-- A zeroed `device_t`. -/
def Device.zero : Device := ⟨none, 0, 0⟩

/-- `dev_tbl`. -/
abbrev DevTbl := Nat → Device

/-- The major numbers of `dev_desc_tbl`: `DEV_TTY` and `DEV_DISK`. -/
def devDescTbl : List Int := [1, 2]

/-- `is_devid_bad`. -/
def isDevidBad (tbl : DevTbl) (devId : Int) : Bool :=
  devId < 0 || devId ≥ devTableSize || (tbl devId.toNat).desc.isNone

/-- An open entry for a device. -/
def Device.isOpen (d : Device) (major minor : Int) : Bool :=
  d.openCount ≠ 0 && d.desc = some major && d.minor = minor

/-- The first loop of `dev_open`, with `n` entries to go: the open entry of
the device, and the last free entry before it. -/
def devScan (tbl : DevTbl) (major minor : Int) : (n i : Nat) → Option Nat → Option Nat × Option Nat
  | 0, _, freeDev => (none, freeDev)
  | n + 1, i, freeDev =>
    if (tbl i).openCount = 0 then devScan tbl major minor n (i + 1) (some i)
    else if (tbl i).desc = some major ∧ (tbl i).minor = minor then (some i, freeDev)
    else devScan tbl major minor n (i + 1) freeDev

/-- `dev_open`: the table, the result and the entry whose driver was asked to
open, if one was. -/
def devOpen (tbl : DevTbl) (major minor err : Int) : DevTbl × Int × Option Nat :=
  match devScan tbl major minor devTableSize 0 none with
  | (some i, _) =>
    (Function.update tbl i { tbl i with openCount := cInt ((tbl i).openCount + 1) }, i, none)
  | (none, freeDev) =>
    match devDescTbl.find? (· = major), freeDev with
    | some desc, some i =>
      let dev := { tbl i with minor := minor, desc := some desc }
      if err = 0 then (Function.update tbl i { dev with openCount := 1 }, i, some i)
      else (Function.update tbl i dev, -1, some i)
    | _, _ => (tbl, -1, none)

/-- `dev_close`: the table and the entry whose driver was asked to close. -/
def devClose (tbl : DevTbl) (devId : Int) : DevTbl × Option Nat :=
  if isDevidBad tbl devId then (tbl, none)
  else
    let i := devId.toNat
    let openCount := cInt ((tbl i).openCount - 1)
    if openCount = 0 then (Function.update tbl i Device.zero, some i)
    else (Function.update tbl i { tbl i with openCount := openCount }, none)

/-! ## Opens and closes -/

/-- An open that has not been closed: the id it returned, and the device. -/
structure DevHandle where
  id : Nat
  major : Int
  minor : Int
  deriving DecidableEq, Repr

/-- The table and the opens that have not been closed. -/
structure DevUse where
  tbl : DevTbl
  opens : List DevHandle

inductive DevEvent where
  | devOpen (major minor err : Int)
  | devClose (id : Nat)
  deriving DecidableEq, Repr

/-- One call; a close needs an open of its id. -/
def devStep (s : DevUse) : DevEvent → Option DevUse
  | .devOpen major minor err =>
    let r := devOpen s.tbl major minor err
    some
      { tbl := r.1
        opens := if r.2.1 ≥ 0 then ⟨r.2.1.toNat, major, minor⟩ :: s.opens else s.opens }
  | .devClose id =>
    if s.opens.any (·.id = id) then
      some { tbl := (devClose s.tbl id).1, opens := s.opens.eraseP (·.id = id) }
    else none

/-- Nothing is open. -/
def devInit : DevUse := ⟨fun _ => Device.zero, []⟩

/-- Successful opens minus closes of an id. -/
def DevUse.held (s : DevUse) (id : Nat) : Nat := s.opens.countP (·.id = id)

/-- No open of a device that is open `INT_MAX` times. -/
def RoomToOpen (s : DevUse) : DevEvent → Prop
  | .devOpen major minor _ =>
    ∀ i < devTableSize, (s.tbl i).isOpen major minor → (s.tbl i).openCount < intMax
  | .devClose _ => True

/-! ## The scan -/

section Scan

variable {tbl : DevTbl} {major minor : Int}

/-- The scan returns the first open entry of the device. -/
theorem devScan_fst (n i : Nat) (freeDev : Option Nat) :
    (devScan tbl major minor n i freeDev).1 =
      findSlot (fun j => (tbl j).isOpen major minor) n i := by
  induction n generalizing i freeDev with
  | zero => rfl
  | succ n ih =>
    rw [devScan, findSlot, Device.isOpen]
    by_cases h₀ : (tbl i).openCount = 0
    · simp [h₀, ih]
    · by_cases h₁ : (tbl i).desc = some major ∧ (tbl i).minor = minor
      · simp [h₀, h₁]
      · rw [if_neg h₀, if_neg h₁, ih, if_neg]
        simpa [h₀] using h₁

/-- A free entry that the scan came by. -/
theorem devScan_snd {n i f : Nat} {freeDev : Option Nat}
    (h : (devScan tbl major minor n i freeDev).2 = some f) :
    freeDev = some f ∨ (tbl f).openCount = 0 ∧ f < i + n := by
  induction n generalizing i freeDev with
  | zero => exact .inl h
  | succ n ih =>
    rw [devScan] at h
    split at h
    next h₀ =>
      rcases ih h with he | he
      · cases he
        exact .inr ⟨h₀, by omega⟩
      · exact .inr ⟨he.1, by omega⟩
    next =>
      split at h
      · exact .inl h
      · rcases ih h with he | he
        · exact .inl he
        · exact .inr ⟨he.1, by omega⟩

end Scan

/-- What `dev_open` does: it finds the device open, or it asks the driver on
a free entry, or it gives up. -/
inductive DevOpen (tbl : DevTbl) (major minor err : Int) : DevTbl × Int × Option Nat → Prop where
  | shared (i : Nat) (hi : i < devTableSize) (hopen : (tbl i).isOpen major minor = true) :
      DevOpen tbl major minor err
        (Function.update tbl i { tbl i with openCount := cInt ((tbl i).openCount + 1) }, i, none)
  | fresh (i : Nat) (hi : i < devTableSize) (hfree : (tbl i).openCount = 0) (herr : err = 0)
      (hnone : ∀ j < devTableSize, (tbl j).isOpen major minor = false) :
      DevOpen tbl major minor err (Function.update tbl i ⟨some major, minor, 1⟩, i, some i)
  | failed (i : Nat) (hi : i < devTableSize) (hfree : (tbl i).openCount = 0) (herr : err ≠ 0)
      (hnone : ∀ j < devTableSize, (tbl j).isOpen major minor = false) :
      DevOpen tbl major minor err (Function.update tbl i ⟨some major, minor, 0⟩, -1, some i)
  | refused (hnone : ∀ j < devTableSize, (tbl j).isOpen major minor = false) :
      DevOpen tbl major minor err (tbl, -1, none)

theorem devOpen_cases (tbl : DevTbl) (major minor err : Int) :
    DevOpen tbl major minor err (devOpen tbl major minor err) := by
  have hfst : (devScan tbl major minor devTableSize 0 none).1 =
      findSlot (fun j => (tbl j).isOpen major minor) devTableSize 0 := devScan_fst ..
  unfold devOpen
  cases hscan : devScan tbl major minor devTableSize 0 none with
  | mk found freeDev =>
    rw [hscan] at hfst
    cases found with
    | some i =>
      obtain ⟨hp, -, hi⟩ := findSlot_eq_some hfst.symm
      exact .shared i (by omega) hp
    | none =>
      have hnone : ∀ j < devTableSize, (tbl j).isOpen major minor = false :=
        fun j hj => findSlot_eq_none.mp hfst.symm j (Nat.zero_le j) (by omega)
      dsimp only
      split
      next _ _ desc i hdesc =>
        have hfree := devScan_snd (f := i) (by rw [hscan])
        obtain ⟨hcount, hi⟩ : (tbl i).openCount = 0 ∧ i < 0 + devTableSize := by simpa using hfree
        obtain rfl : desc = major := by simpa using List.find?_some hdesc
        rw [hcount]
        split
        next herr => exact .fresh i (by omega) hcount herr hnone
        next herr => exact .failed i (by omega) hcount herr hnone
      · exact .refused hnone

/-! ## The invariant -/

/-- The counts are those of the opens, and the opens of one device have one
entry, which is that of no other device. -/
structure DevInv (s : DevUse) : Prop where
  count_eq : ∀ i < devTableSize, (s.tbl i).openCount = s.held i
  count_le : ∀ i < devTableSize, (s.tbl i).openCount ≤ intMax
  id_lt : ∀ o ∈ s.opens, o.id < devTableSize
  key : ∀ o ∈ s.opens, (s.tbl o.id).desc = some o.major ∧ (s.tbl o.id).minor = o.minor
  unique : ∀ i < devTableSize, ∀ j < devTableSize, ∀ major minor,
    (s.tbl i).isOpen major minor → (s.tbl j).isOpen major minor → i = j

section Invariant

variable {s s' : DevUse}

theorem held_pos {id : Nat} : 0 < s.held id ↔ ∃ o ∈ s.opens, o.id = id := by
  simp [DevUse.held, List.countP_pos_iff]

theorem DevInv.nonneg (h : DevInv s) {i : Nat} (hi : i < devTableSize) :
    0 ≤ (s.tbl i).openCount := by
  rw [h.count_eq i hi]
  exact Int.natCast_nonneg _

/-- An entry with a count is open for the device of its opens. -/
theorem DevInv.isOpen (h : DevInv s) {o : DevHandle} (ho : o ∈ s.opens) :
    (s.tbl o.id).isOpen o.major o.minor = true := by
  obtain ⟨hdesc, hminor⟩ := h.key o ho
  have hheld : 0 < s.held o.id := held_pos.mpr ⟨o, ho, rfl⟩
  have hcount := h.count_eq o.id (h.id_lt o ho)
  have hne : (s.tbl o.id).openCount ≠ 0 := by omega
  simp [Device.isOpen, hdesc, hminor, hne]

/-- An open entry has an open, and all its opens are of that device. -/
theorem DevInv.of_isOpen (h : DevInv s) {i : Nat} (hi : i < devTableSize) {major minor : Int}
    (hopen : (s.tbl i).isOpen major minor = true) :
    0 < s.held i ∧ (s.tbl i).desc = some major ∧ (s.tbl i).minor = minor := by
  simp only [Device.isOpen, ne_eq, decide_not, Bool.and_eq_true, Bool.not_eq_true',
    decide_eq_false_iff_not, decide_eq_true_eq] at hopen
  obtain ⟨⟨hne, hdesc⟩, hminor⟩ := hopen
  have hcount := h.count_eq i hi
  exact ⟨by omega, hdesc, hminor⟩

/-- A held id is a good one. -/
theorem DevInv.isDevidBad_eq_false (h : DevInv s) {i : Nat} (hi : i < devTableSize)
    (hheld : 0 < s.held i) : isDevidBad s.tbl i = false := by
  obtain ⟨o, ho, rfl⟩ := held_pos.mp hheld
  obtain ⟨hdesc, -⟩ := h.key o ho
  simp [isDevidBad, hdesc, hi]

theorem devInv_init : DevInv devInit where
  count_eq := fun _ _ => rfl
  count_le := fun _ _ => show (0 : Int) ≤ intMax by decide
  id_lt := fun _ ho => absurd ho List.not_mem_nil
  key := fun _ ho => absurd ho List.not_mem_nil
  unique := by simp [devInit, Device.zero, Device.isOpen]

/-- An open of `i`, and the new count of its entry. -/
theorem DevInv.opened (h : DevInv s) {i : Nat} (hi : i < devTableSize) {d : Device}
    (hcount : d.openCount = (s.tbl i).openCount + 1) (hle : d.openCount ≤ intMax)
    {major minor : Int} (hdesc : d.desc = some major) (hminor : d.minor = minor)
    (hkeep : (s.tbl i).openCount ≠ 0 → (s.tbl i).isOpen major minor = true)
    (hnew : ∀ j < devTableSize, (s.tbl j).isOpen major minor = true → j = i) :
    DevInv ⟨Function.update s.tbl i d, ⟨i, major, minor⟩ :: s.opens⟩ := by
  have hopen : ∀ j < devTableSize, ∀ a b, (Function.update s.tbl i d j).isOpen a b = true →
      (j = i ∧ a = major ∧ b = minor) ∨ (j ≠ i ∧ (s.tbl j).isOpen a b = true) := by
    intro j hj a b hj'
    by_cases he : j = i
    · subst he
      rw [Function.update_self] at hj'
      simp only [Device.isOpen, hdesc, hminor, Bool.and_eq_true, decide_eq_true_eq,
        Option.some.injEq] at hj'
      exact .inl ⟨rfl, hj'.1.2.symm, hj'.2.symm⟩
    · rw [Function.update_of_ne he] at hj'
      exact .inr ⟨he, hj'⟩
  constructor
  case count_eq =>
    intro j hj
    have hj' := h.count_eq j hj
    by_cases he : j = i
    · subst he
      simp [DevUse.held, hcount, hj']
    · simpa [DevUse.held, Function.update_of_ne he, Ne.symm he] using hj'
  case count_le =>
    intro j hj
    by_cases he : j = i
    · subst he
      simpa using hle
    · simpa [Function.update_of_ne he] using h.count_le j hj
  case id_lt =>
    intro o ho
    rcases List.mem_cons.mp ho with rfl | ho
    · exact hi
    · exact h.id_lt o ho
  case key =>
    intro o ho
    rcases List.mem_cons.mp ho with rfl | ho
    · simp [hdesc, hminor]
    · by_cases he : o.id = i
      · -- the entry stays that of the opens it had
        have hheld : 0 < s.held i := held_pos.mpr ⟨o, ho, he⟩
        have hne : (s.tbl i).openCount ≠ 0 := by
          have := h.count_eq i hi
          omega
        obtain ⟨-, hd, hm⟩ := h.of_isOpen hi (hkeep hne)
        obtain ⟨hod, hom⟩ := h.key o ho
        rw [he] at hod hom
        simp only [he, Function.update_self]
        exact ⟨by rw [hdesc, ← hd, hod], by rw [hminor, ← hm, hom]⟩
      · simpa [Function.update_of_ne he] using h.key o ho
  case unique =>
    intro j hj k hk a b hja hkb
    rcases hopen j hj a b hja with ⟨rfl, rfl, rfl⟩ | ⟨-, hja'⟩
    · rcases hopen k hk _ _ hkb with ⟨rfl, -, -⟩ | ⟨-, hkb'⟩
      · rfl
      · exact (hnew k hk hkb').symm
    · rcases hopen k hk a b hkb with ⟨rfl, rfl, rfl⟩ | ⟨-, hkb'⟩
      · exact hnew j hj hja'
      · exact h.unique j hj k hk a b hja' hkb'

/-- An entry with no opens may get any contents with a zero count. -/
theorem DevInv.free (h : DevInv s) {i : Nat} (hfree : (s.tbl i).openCount = 0) {d : Device}
    (hd : d.openCount = 0) : DevInv ⟨Function.update s.tbl i d, s.opens⟩ := by
  have hother : ∀ j, (Function.update s.tbl i d j).openCount = (s.tbl j).openCount := by
    intro j
    by_cases he : j = i
    · subst he
      simp [hd, hfree]
    · rw [Function.update_of_ne he]
  have hopen : ∀ j a b, (Function.update s.tbl i d j).isOpen a b = true →
      (s.tbl j).isOpen a b = true := by
    intro j a b hj
    by_cases he : j = i
    · subst he
      simp [Device.isOpen, hd] at hj
    · rwa [Function.update_of_ne he] at hj
  constructor
  case count_eq =>
    intro j hj
    rw [hother]
    exact h.count_eq j hj
  case count_le =>
    intro j hj
    rw [hother]
    exact h.count_le j hj
  case id_lt => exact h.id_lt
  case key =>
    intro o ho
    have he : o.id ≠ i := by
      rintro rfl
      have hheld : 0 < s.held o.id := held_pos.mpr ⟨o, ho, rfl⟩
      have := h.count_eq o.id (h.id_lt o ho)
      omega
    simpa [Function.update_of_ne he] using h.key o ho
  case unique =>
    exact fun j hj k hk a b hja hkb => h.unique j hj k hk a b (hopen j a b hja) (hopen k a b hkb)

/-- A close of `i`, and the new count of its entry. -/
theorem DevInv.closed (h : DevInv s) {i : Nat} (hi : i < devTableSize) (hheld : 0 < s.held i)
    {d : Device} (hcount : d.openCount = (s.tbl i).openCount - 1)
    (hkeep : d.openCount ≠ 0 → d.desc = (s.tbl i).desc ∧ d.minor = (s.tbl i).minor) :
    DevInv ⟨Function.update s.tbl i d, s.opens.eraseP (·.id = i)⟩ := by
  obtain ⟨a, ha, hai⟩ := held_pos.mp hheld
  obtain ⟨b, l₁, l₂, -, hb, hl, herase⟩ :=
    List.exists_of_eraseP (p := (·.id = i)) ha (by simpa using hai)
  have hbi : b.id = i := by simpa using hb
  rw [herase]
  have hheld' : ∀ j, s.held j = (l₁ ++ l₂).countP (·.id = j) + if j = i then 1 else 0 := by
    intro j
    by_cases he : j = i
    · subst he
      simp [DevUse.held, hl, hbi, Nat.add_assoc]
    · simp [DevUse.held, hl, hbi, he, Ne.symm he]
  have hmem : ∀ o ∈ l₁ ++ l₂, o ∈ s.opens := by
    intro o ho
    rw [hl]
    simp only [List.mem_append, List.mem_cons] at ho ⊢
    tauto
  have hopen : ∀ j < devTableSize, ∀ a b, (Function.update s.tbl i d j).isOpen a b = true →
      (s.tbl j).isOpen a b = true := by
    intro j hj a b hj'
    by_cases he : j = i
    · subst he
      have hne : (s.tbl j).openCount ≠ 0 := by
        have := h.count_eq j hj
        omega
      simp only [Function.update_self, Device.isOpen, ne_eq, decide_not, Bool.and_eq_true,
        Bool.not_eq_true', decide_eq_false_iff_not, decide_eq_true_eq] at hj'
      obtain ⟨hd, hm⟩ := hkeep hj'.1.1
      simp [Device.isOpen, hne, ← hd, ← hm, hj'.1.2, hj'.2]
    · rwa [Function.update_of_ne he] at hj'
  constructor
  case count_eq =>
    intro j hj
    have hj' := h.count_eq j hj
    rw [hheld' j] at hj'
    by_cases he : j = i
    · subst he
      simp only [Function.update_self, DevUse.held, if_true] at hj' ⊢
      omega
    · simpa [DevUse.held, Function.update_of_ne he, he] using hj'
  case count_le =>
    intro j hj
    have hj' := h.count_le j hj
    by_cases he : j = i
    · subst he
      simp only [Function.update_self]
      omega
    · simpa [Function.update_of_ne he] using hj'
  case id_lt => exact fun o ho => h.id_lt o (hmem o ho)
  case key =>
    intro o ho
    have hkey := h.key o (hmem o ho)
    by_cases he : o.id = i
    · have hpos : 0 < (l₁ ++ l₂).countP (·.id = i) :=
        List.countP_pos_iff.mpr ⟨o, ho, by simpa using he⟩
      have hne : d.openCount ≠ 0 := by
        have := h.count_eq i hi
        rw [hheld' i, if_pos rfl] at this
        omega
      obtain ⟨hd, hm⟩ := hkeep hne
      rw [he] at hkey
      simpa [he, hd, hm] using hkey
    · simpa [Function.update_of_ne he] using hkey
  case unique =>
    exact fun j hj k hk a b hja hkb =>
      h.unique j hj k hk a b (hopen j hj a b hja) (hopen k hk a b hkb)

/-- What `dev_close` does to an open entry. -/
theorem DevInv.devClose_eq (h : DevInv s) {i : Nat} (hi : i < devTableSize) (hheld : 0 < s.held i) :
    devClose s.tbl i =
      if (s.tbl i).openCount = 1 then (Function.update s.tbl i Device.zero, some i)
      else (Function.update s.tbl i { s.tbl i with openCount := (s.tbl i).openCount - 1 },
        none) := by
  have hgood : isDevidBad s.tbl i = false := h.isDevidBad_eq_false hi hheld
  have hcount := h.count_eq i hi
  have hle := h.count_le i hi
  have hint : cInt ((s.tbl i).openCount - 1) = (s.tbl i).openCount - 1 :=
    cInt_eq (by omega) (by omega)
  unfold devClose
  simp only [hgood, Int.toNat_natCast, hint]
  by_cases h1 : (s.tbl i).openCount = 1
  · simp [h1]
  · have : (s.tbl i).openCount - 1 ≠ 0 := by omega
    simp [h1, this]

end Invariant

/-! ## Whole runs -/

section Runs

variable {s s' t : DevUse} {es fs : List DevEvent}

/-- Every call that has room keeps the invariant. -/
theorem devInv_step {e : DevEvent} (h : DevInv s) (hroom : RoomToOpen s e)
    (hs : devStep s e = some s') : DevInv s' := by
  cases e with
  | devOpen major minor err =>
    have hcases := devOpen_cases s.tbl major minor err
    simp only [devStep, Option.some.injEq] at hs
    subst hs
    generalize devOpen s.tbl major minor err = r at hcases
    cases hcases with
    | shared i hi hopen =>
      have hle := hroom i hi hopen
      have hpos := h.nonneg hi
      obtain ⟨-, hdesc, hminor⟩ := h.of_isOpen hi hopen
      have hint : cInt ((s.tbl i).openCount + 1) = (s.tbl i).openCount + 1 :=
        cInt_eq (by omega) (by omega)
      simpa [hint] using h.opened hi (d := { s.tbl i with openCount := (s.tbl i).openCount + 1 })
        rfl (show (s.tbl i).openCount + 1 ≤ intMax by omega) hdesc hminor (fun _ => hopen)
        fun j hj hj' => h.unique j hj i hi major minor hj' hopen
    | fresh i hi hfree _ hnone =>
      simpa using h.opened hi (d := ⟨some major, minor, 1⟩) (by simp [hfree]) (by simp [intMax])
        rfl rfl (fun hne => absurd hfree hne) fun j hj hj' => by simp [hnone j hj] at hj'
    | failed i hi hfree _ _ => simpa using h.free hfree (d := ⟨some major, minor, 0⟩) rfl
    | refused _ => simpa using h
  | devClose i =>
    have hany : s.opens.any (·.id = i) = true := by
      by_contra hany
      simp [devStep, hany] at hs
    have hheld : 0 < s.held i := held_pos.mpr (by simpa using hany)
    obtain ⟨o, ho, rfl⟩ := held_pos.mp hheld
    have hi := h.id_lt o ho
    simp only [devStep, hany, if_true, Option.some.injEq] at hs
    subst hs
    rw [h.devClose_eq hi hheld]
    split
    next h1 => exact h.closed hi hheld (by simp [Device.zero, h1]) (by simp [Device.zero])
    next => exact h.closed hi hheld rfl fun _ => ⟨rfl, rfl⟩

theorem devInv_run (h : DevInv s) (hroom : Along devStep RoomToOpen s es)
    (hrun : run devStep s es = some t) : DevInv t :=
  run_invariant_along (fun _ _ _ hi hp hs => devInv_step hi hp hs) h hroom hrun

/-- An entry stays that of its device until its count is zero. -/
theorem devStep_key {e : DevEvent} (h : DevInv s) (hs : devStep s e = some s') {o : DevHandle}
    (ho : o ∈ s.opens) (hheld : 0 < s'.held o.id) :
    ∃ o' ∈ s'.opens, o'.id = o.id ∧ o'.major = o.major ∧ o'.minor = o.minor := by
  cases e with
  | devOpen major minor err =>
    simp only [devStep, Option.some.injEq] at hs
    subst hs
    refine ⟨o, ?_, rfl, rfl, rfl⟩
    dsimp only
    split
    · exact List.mem_cons_of_mem _ ho
    · exact ho
  | devClose i =>
    obtain ⟨o', ho', hid⟩ := held_pos.mp hheld
    have hsub : o' ∈ s.opens := by
      simp only [devStep] at hs
      split at hs
      · cases hs
        exact List.mem_of_mem_eraseP ho'
      · simp at hs
    obtain ⟨hdesc, hminor⟩ := h.key o ho
    obtain ⟨hdesc', hminor'⟩ := h.key o' hsub
    rw [hid, hdesc, Option.some.injEq] at hdesc'
    rw [hid, hminor] at hminor'
    exact ⟨o', ho', hid, hdesc'.symm, hminor'.symm⟩

/-- The id `id` is open, and a call with room leaves it open. -/
def StaysOpen (id : Nat) (s : DevUse) (e : DevEvent) : Prop :=
  RoomToOpen s e ∧ ∀ s', devStep s e = some s' → 0 < s'.held id

theorem devRun_key (h : DevInv s) {o : DevHandle} (ho : o ∈ s.opens)
    (hstay : Along devStep (StaysOpen o.id) s fs) (hrun : run devStep s fs = some t) :
    ∃ o' ∈ t.opens, o'.id = o.id ∧ o'.major = o.major ∧ o'.minor = o.minor := by
  have hstep : ∀ u e u',
      (DevInv u ∧ ∃ o' ∈ u.opens, o'.id = o.id ∧ o'.major = o.major ∧ o'.minor = o.minor) →
      StaysOpen o.id u e → devStep u e = some u' →
      DevInv u' ∧ ∃ o' ∈ u'.opens, o'.id = o.id ∧ o'.major = o.major ∧ o'.minor = o.minor := by
    rintro u e u' ⟨hu, o₁, ho₁, hid, hmajor, hminor⟩ ⟨hroom, hheld⟩ hs
    obtain ⟨o₂, ho₂, hid₂, hmajor₂, hminor₂⟩ := devStep_key hu hs ho₁ (hid ▸ hheld u' hs)
    exact ⟨devInv_step hu hroom hs, o₂, ho₂, hid₂.trans hid, hmajor₂.trans hmajor,
      hminor₂.trans hminor⟩
  exact (run_invariant_along hstep ⟨h, o, ho, rfl, rfl, rfl⟩ hstay hrun).2

/-- An open of a device that is open returns its id; the driver is not asked. -/
theorem DevInv.devOpen_shared (h : DevInv s) {o : DevHandle} (ho : o ∈ s.opens) (err : Int) :
    (devOpen s.tbl o.major o.minor err).2 = (↑o.id, none) := by
  have hi := h.id_lt o ho
  have hopen := h.isOpen ho
  have hcases := devOpen_cases s.tbl o.major o.minor err
  generalize devOpen s.tbl o.major o.minor err = r at hcases
  cases hcases with
  | shared i hi' hopen' => rw [h.unique i hi' o.id hi _ _ hopen' hopen]
  | fresh _ _ _ _ hnone => simp [hnone o.id hi] at hopen
  | failed _ _ _ _ hnone => simp [hnone o.id hi] at hopen
  | refused hnone => simp [hnone o.id hi] at hopen

/-- What the table promises: the counts are those of the opens, an id stands
for one device, and the drivers are asked when a count leaves or reaches 0. -/
structure DevTableOk (s : DevUse) : Prop where
  openCount_eq : ∀ i < devTableSize, (s.tbl i).openCount = s.held i
  id_eq_iff : ∀ o₁ ∈ s.opens, ∀ o₂ ∈ s.opens,
    (o₁.id = o₂.id ↔ o₁.major = o₂.major ∧ o₁.minor = o₂.minor)
  driver_open : ∀ major minor err, ∀ i < devTableSize,
    ((devOpen s.tbl major minor err).2.2 = some i → (s.tbl i).openCount = 0) ∧
    ((s.tbl i).openCount = 0 ∧ ((devOpen s.tbl major minor err).1 i).openCount ≠ 0 ↔
      (devOpen s.tbl major minor err).2.2 = some i ∧ err = 0)
  driver_failed : ∀ major minor err, (devOpen s.tbl major minor err).2.2 ≠ none → err ≠ 0 →
    (devOpen s.tbl major minor err).2.1 = -1 ∧
    ∀ i, ((devOpen s.tbl major minor err).1 i).openCount = (s.tbl i).openCount
  driver_close : ∀ o ∈ s.opens, ∀ i < devTableSize,
    ((s.tbl i).openCount ≠ 0 ∧ ((devClose s.tbl o.id).1 i).openCount = 0 ↔
      (devClose s.tbl o.id).2 = some i)
  not_bad : ∀ i < devTableSize, 0 < (s.tbl i).openCount → isDevidBad s.tbl i = false

theorem DevInv.driver_open (h : DevInv s) (major minor err : Int) (i : Nat) :
    ((devOpen s.tbl major minor err).2.2 = some i → (s.tbl i).openCount = 0) ∧
    ((s.tbl i).openCount = 0 ∧ ((devOpen s.tbl major minor err).1 i).openCount ≠ 0 ↔
      (devOpen s.tbl major minor err).2.2 = some i ∧ err = 0) := by
  have hcases := devOpen_cases s.tbl major minor err
  generalize devOpen s.tbl major minor err = r at hcases
  cases hcases with
  | shared j hj hopen =>
    obtain ⟨hheld, -, -⟩ := h.of_isOpen hj hopen
    have hcount := h.count_eq j hj
    by_cases he : i = j
    · subst he
      have hne : (s.tbl i).openCount ≠ 0 := by omega
      simp [hne]
    · simp [Function.update_of_ne he]
  | fresh j hj hfree herr hnone =>
    by_cases he : i = j
    · subst he
      simp [hfree, herr]
    · simp [Function.update_of_ne he, Ne.symm he]
  | failed j hj hfree herr hnone =>
    by_cases he : i = j
    · subst he
      simp [hfree, herr]
    · simp [Function.update_of_ne he, Ne.symm he]
  | refused hnone => simp

theorem devOpen_driver_failed {tbl : DevTbl} {major minor err : Int}
    (hcalled : (devOpen tbl major minor err).2.2 ≠ none) (herr : err ≠ 0) :
    (devOpen tbl major minor err).2.1 = -1 ∧
    ∀ i, ((devOpen tbl major minor err).1 i).openCount = (tbl i).openCount := by
  have hcases := devOpen_cases tbl major minor err
  generalize devOpen tbl major minor err = r at hcases hcalled
  cases hcases with
  | shared => simp at hcalled
  | fresh _ _ _ herr₀ => exact absurd herr₀ herr
  | failed j hj hfree herr hnone =>
    refine ⟨rfl, fun i => ?_⟩
    by_cases he : i = j
    · subst he
      simp [hfree]
    · simp [Function.update_of_ne he]
  | refused => simp at hcalled

theorem DevInv.driver_close (h : DevInv s) {o : DevHandle} (ho : o ∈ s.opens) (i : Nat) :
    (s.tbl i).openCount ≠ 0 ∧ ((devClose s.tbl o.id).1 i).openCount = 0 ↔
      (devClose s.tbl o.id).2 = some i := by
  have hi := h.id_lt o ho
  have hheld : 0 < s.held o.id := held_pos.mpr ⟨o, ho, rfl⟩
  have hcount := h.count_eq o.id hi
  rw [h.devClose_eq hi hheld]
  by_cases he : i = o.id
  · subst he
    split
    next h1 => simp [Device.zero, h1]
    next h1 =>
      have : (s.tbl o.id).openCount - 1 ≠ 0 := by omega
      simp [this]
  · split
    · simp [Function.update_of_ne he, Ne.symm he]
    · simp [Function.update_of_ne he]

theorem DevInv.ok (h : DevInv s) : DevTableOk s where
  openCount_eq := h.count_eq
  id_eq_iff := by
    intro o₁ h₁ o₂ h₂
    obtain ⟨hd₁, hm₁⟩ := h.key o₁ h₁
    obtain ⟨hd₂, hm₂⟩ := h.key o₂ h₂
    constructor
    · intro he
      rw [he, hd₂, Option.some.injEq] at hd₁
      rw [he, hm₂] at hm₁
      exact ⟨hd₁.symm, hm₁.symm⟩
    · rintro ⟨hmajor, hminor⟩
      have hopen := h.isOpen h₁
      rw [hmajor, hminor] at hopen
      exact h.unique _ (h.id_lt o₁ h₁) _ (h.id_lt o₂ h₂) _ _ hopen (h.isOpen h₂)
  driver_open := fun major minor err i _ => h.driver_open major minor err i
  driver_failed := fun _ _ _ hcalled herr => devOpen_driver_failed hcalled herr
  driver_close := fun _ ho i _ => h.driver_close ho i
  not_bad := by
    intro i hi hpos
    rw [h.count_eq i hi] at hpos
    exact h.isDevidBad_eq_false hi (by omega)

/-- In every state of every run with room the table keeps its promises, and
an open returns the id of an open of the same device that nothing has
completely closed since. -/
theorem dev_table_ok (hroom : Along devStep RoomToOpen devInit es)
    (hrun : run devStep devInit es = some s) :
    DevTableOk s ∧
    ∀ o ∈ s.opens, ∀ fs t, Along devStep (StaysOpen o.id) s fs → run devStep s fs = some t →
      ∀ err, (devOpen t.tbl o.major o.minor err).2 = (↑o.id, none) := by
  have hs := devInv_run devInv_init hroom hrun
  refine ⟨hs.ok, fun o ho fs t hstay hfs err => ?_⟩
  have ht : DevInv t :=
    devInv_run hs (hstay.mono fun _ _ he => he.1) hfs
  obtain ⟨o', ho', hid, hmajor, hminor⟩ := devRun_key hs ho hstay hfs
  rw [← hid, ← hmajor, ← hminor]
  exact ht.devOpen_shared ho' err

end Runs

instance (s : DevUse) (e : DevEvent) : Decidable (RoomToOpen s e) :=
  match e with
  | .devOpen major minor _ =>
    inferInstanceAs (Decidable (∀ i < devTableSize,
      (s.tbl i).isOpen major minor = true → (s.tbl i).openCount < intMax))
  | .devClose _ => .isTrue trivial

/-- The driver refuses a device, then it is opened twice and closed once. -/
def devSample : List DevEvent :=
  [.devOpen 1 0 1, .devOpen 1 0 0, .devOpen 2 0 0, .devOpen 1 0 0, .devClose 127]

theorem dev_table_ok_devSample :
    ∃ s, run devStep devInit devSample = some s ∧ DevTableOk s ∧ s.held 127 = 1 ∧
      s.held 126 = 1 := by
  have hroom : Along devStep RoomToOpen devInit devSample := by decide +kernel
  have hheld : (run devStep devInit devSample).map (fun s => (s.held 127, s.held 126)) =
      some (1, 1) := by decide +kernel
  obtain ⟨s, hs, hpair⟩ := Option.map_eq_some_iff.mp hheld
  rw [Prod.mk.injEq] at hpair
  exact ⟨s, hs, (dev_table_ok hroom hs).1, hpair⟩

/-! ## More than `INT_MAX` opens -/

/-- The first tty is open `n` times. -/
def ttyOpens (n : Nat) : DevUse :=
  ⟨Function.update (fun _ => Device.zero) 127 ⟨some 1, 0, n⟩, List.replicate n ⟨127, 1, 0⟩⟩

theorem devOpen_ttyOpens {n : Nat} (hn : 0 < n) :
    devOpen (ttyOpens n).tbl 1 0 0 =
      (Function.update (fun _ => Device.zero) 127 ⟨some 1, 0, cInt (n + 1)⟩, 127, none) := by
  have hopen : ((ttyOpens n).tbl 127).isOpen 1 0 = true := by
    simp [ttyOpens, Device.isOpen]
    omega
  have hcases := devOpen_cases (ttyOpens n).tbl 1 0 0
  generalize devOpen (ttyOpens n).tbl 1 0 0 = r at hcases
  cases hcases with
  | shared i hi hopen' =>
    have he : i = 127 := by
      by_contra he
      simp [ttyOpens, Function.update_of_ne he, Device.isOpen, Device.zero] at hopen'
    subst he
    simp [ttyOpens]
  | fresh _ _ _ _ hnone => simp [hnone 127 (by decide)] at hopen
  | failed _ _ _ _ hnone => simp [hnone 127 (by decide)] at hopen
  | refused hnone => simp [hnone 127 (by decide)] at hopen

theorem run_ttyOpens (n : Nat) (hn : n + 1 ≤ 2147483647) :
    run devStep devInit (List.replicate (n + 1) (.devOpen 1 0 0)) = some (ttyOpens (n + 1)) := by
  induction n with
  | zero =>
    have hfirst : devOpen devInit.tbl 1 0 0 =
        (Function.update (fun _ => Device.zero) 127 ⟨some 1, 0, 1⟩, 127, some 127) := by
      have hscan : devScan devInit.tbl 1 0 devTableSize 0 none = (none, some 127) := by
        decide +kernel
      unfold devOpen
      rw [hscan]
      rfl
    rw [List.replicate_one, run_cons, devStep, hfirst]
    rfl
  | succ n ih =>
    rw [List.replicate_succ', run_concat]
    refine ⟨_, ih (by omega), ?_⟩
    rw [devStep, devOpen_ttyOpens (Nat.succ_pos n), cInt_eq (by omega) (by unfold intMax; omega)]
    simp [ttyOpens, List.replicate_succ]

theorem run_ttyOpens_overflow (n : Nat) (hn : n + 1 = 2147483647) :
    ∃ s, run devStep devInit (List.replicate (n + 1 + 1) (.devOpen 1 0 0)) = some s ∧
      s.held 127 = n + 1 + 1 ∧ (s.tbl 127).openCount = -2147483648 := by
  have hwrap : cInt ((n + 1 : Nat) + 1) = -2147483648 := by
    rw [hn]
    rfl
  have hopen := devOpen_ttyOpens (Nat.succ_pos n)
  rw [hwrap] at hopen
  rw [List.replicate_succ']
  simp only [run_concat]
  refine ⟨_, ⟨_, run_ttyOpens n (by omega), rfl⟩, ?_, ?_⟩
  · rw [hopen]
    simp [ttyOpens, DevUse.held, List.countP_replicate]
  · rw [hopen]
    rfl

/-- 2^31 opens of a tty: the count is negative. -/
theorem dev_open_overflow :
    ∃ s, run devStep devInit (List.replicate 2147483648 (.devOpen 1 0 0)) = some s ∧
      s.held 127 = 2147483648 ∧ (s.tbl 127).openCount = -2147483648 :=
  run_ttyOpens_overflow 2147483646 rfl

end Wjos
