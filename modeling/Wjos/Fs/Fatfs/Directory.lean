/-
Wjos.Fs.Fatfs.Directory — the root directory as the scans see it.

A slot is an end marker, free, or live. A scan reaches the slots before the
first end marker: `Visible`. `Finds dir n name i` says that slot `i` is the
first visible one with that name, `Absent` that there is none, and `Slot` what
`p_index` then is: the first end marker, the last free slot when there is no
end marker, or `-1` when every slot is live.

`openScan_shows` and `unlinkScan_shows` give the loops of `fatfs_open` and
`fatfs_unlink` in these terms.
-/
import Wjos.Fs.Fatfs.Image

namespace Wjos

open Lib

/-! ## Entries -/

/-- Two entries with the same 32 bytes. -/
def DirItem.Agree (a b : DirItem) : Prop := ∀ j < 32, a j = b j

namespace DirItem.Agree

variable {a b : DirItem}

theorem name (h : a.Agree b) : a.name = b.name := by
  refine List.map_congr_left fun j hj => h j ?_
  have hlt : j < 11 := List.mem_range.mp hj
  omega

theorem attr (h : a.Agree b) : a.attr = b.attr := h 11 (by decide)

theorem fstClusHI (h : a.Agree b) : a.fstClusHI = b.fstClusHI :=
  le16_congr (h 20 (by decide)) (h 21 (by decide))

theorem fstClusL0 (h : a.Agree b) : a.fstClusL0 = b.fstClusL0 :=
  le16_congr (h 26 (by decide)) (h 27 (by decide))

theorem fileSize (h : a.Agree b) : a.fileSize = b.fileSize :=
  le32_congr fun i hi => h (28 + i) (by omega)

theorem getType (h : a.Agree b) : diritemGetType a = diritemGetType b := by
  simp only [diritemGetType, h.attr]

theorem readFrom (h : a.Agree b) (file : File) (index : Int) :
    readFromDiritem file a index = readFromDiritem file b index := by
  simp only [readFromDiritem, h.getType, h.fileSize, h.fstClusHI, h.fstClusL0]

theorem nameMatch (h : a.Agree b) (path : List UInt8) :
    diritemNameMatch a path = diritemNameMatch b path := by
  simp only [diritemNameMatch, h.name]

end DirItem.Agree

section Access

variable {dev : Dev} {g : Fat} {v : Volume} {im : Image} {i : Nat}

/-- Where a directory entry is. -/
theorem item_address (hg : g.Ok) (hi : i < g.rootEntCnt) :
    g.rootStart + i * 32 / 512 < g.dataStart ∧
      (g.rootStart + i * 32 / 512) * 512 + i * 32 % 512 = g.rootStart * 512 + i * 32 ∧
      i * 32 % 512 + 32 ≤ 512 := by
  have h₁ := hg.rootWhole
  rw [hg.dataStart]
  omega

/-- Two entries of one sector do not overlap. -/
theorem item_offset_le {k : Nat} (hs : k * 32 / 512 = i * 32 / 512) (hk : k < i) :
    k * 32 % 512 + 32 ≤ i * 32 % 512 := by omega

/-- Inside the directory both access functions get to their sector. -/
theorem not_out_of_range (hi : i < g.rootEntCnt) :
    ¬((i : Int) < 0 ∨ (i : Int) ≥ g.rootEntCnt) := by omega

theorem readDirEntry_shows (hw : Works dev) (hg : g.Ok) (h : Shows g v im)
    (hi : i < g.rootEntCnt) :
    ∃ v', readDirEntry dev g v i = (v', some (i * 32 % 512)) ∧ Shows g v' im ∧
      Cached g v' (g.rootStart + i * 32 / 512) ∧
      (itemAt v' (i * 32 % 512)).Agree (im.dir i) := by
  obtain ⟨hlt, haddr, hoff⟩ := item_address hg hi
  obtain ⟨v', hb, hsh, hca, hd⟩ := breadSector_shows hw h hlt
  refine ⟨v', ?_, hsh, hca, fun j hj => ?_⟩
  · rw [readDirEntry, if_neg (not_out_of_range hi)]
    simp only [hg.bytesPerSec, diritemSize, Int.toNat_natCast, hb]
    rfl
  · have hbuf := hca.buffer (i * 32 % 512 + j) (by omega)
    rw [itemAt, hbuf, hd, ← h.image_eq]
    simp only [image, hi, hj, and_self, if_true]
    rw [← Nat.add_assoc, haddr]

/-- With the sector cached, `write_dir_entry` patches the buffer and writes it. -/
theorem writeDirEntry_cached (hg : g.Ok) (hi : i < g.rootEntCnt)
    (hc : v.currSector = ((g.rootStart + i * 32 / 512 : Nat) : Int)) (item : DirItem) :
    writeDirEntry dev g v item i =
      bwriteSector dev { v with fatBuffer := copyTo v.fatBuffer (i * 32 % 512) 32 item }
        (g.rootStart + i * 32 / 512) := by
  have hb : breadSector dev v (g.rootStart + i * 32 / 512) = (v, 0) := if_pos hc.symm
  rw [writeDirEntry, if_neg (not_out_of_range hi)]
  simp only [hg.bytesPerSec, diritemSize, Int.toNat_natCast, hb]
  rfl

/-- A directory sector written with one entry replaced. -/
theorem bwriteSector_item (hw : Works dev) (hg : g.Ok) (h : Shows g v im)
    (hi : i < g.rootEntCnt) (hc : Cached g v (g.rootStart + i * 32 / 512)) (item : DirItem)
    {buf : Nat → UInt8}
    (hbuf : ∀ a < 512, buf a = copyTo v.fatBuffer (i * 32 % 512) 32 item a) :
    ∃ v', bwriteSector dev { v with fatBuffer := buf } (g.rootStart + i * 32 / 512) = (v', 0) ∧
      Shows g v' (im.setItem i item) := by
  obtain ⟨hlt, haddr, hoff⟩ := item_address hg hi
  rw [bwriteSector_eq hw]
  refine ⟨_, rfl, ?_, fun s hs => ?_⟩
  · have hlow : ∀ a, a < g.rootStart * 512 →
        copyTo v.disk ((g.rootStart + i * 32 / 512) * 512) 512 buf a = v.disk a :=
      fun a ha => copyTo_of_lt (lt_sector (Nat.le_add_right ..) ha)
    have hhigh : ∀ a, g.dataStart * 512 ≤ a →
        copyTo v.disk ((g.rootStart + i * 32 / 512) * 512) 512 buf a = v.disk a :=
      fun a ha => copyTo_of_ge (sector_end_le hlt ha)
    have hroot := hg.rootStart
    have hdir : ∀ k < g.rootEntCnt, ∀ j < 32,
        copyTo v.disk ((g.rootStart + i * 32 / 512) * 512) 512 buf
          (g.rootStart * 512 + k * 32 + j) =
        if k = i then item j else v.disk (g.rootStart * 512 + k * 32 + j) := by
      intro k hk j hj
      obtain ⟨-, hka, hko⟩ := item_address hg hk
      rcases Nat.lt_trichotomy (k * 32 / 512) (i * 32 / 512) with hsec | hsec | hsec
      · have hlt' : g.rootStart + k * 32 / 512 < g.rootStart + i * 32 / 512 := by omega
        have hle := sector_end_le hlt' (Nat.le_refl _)
        have hki : k ≠ i := fun he => Nat.lt_irrefl _ (he ▸ hsec)
        rw [copyTo_of_lt (by omega), if_neg hki]
      · rw [hsec] at hka
        have ha : g.rootStart * 512 + k * 32 + j =
            (g.rootStart + i * 32 / 512) * 512 + (k * 32 % 512 + j) := by
          rw [← hka, Nat.add_assoc]
        rw [ha, copyTo_add (by omega), hbuf _ (by omega)]
        by_cases hki : k = i
        · rw [if_pos hki, hki, copyTo_add hj]
        · rw [if_neg hki, ← hc.buffer _ (by omega)]
          rcases Nat.lt_or_gt_of_ne hki with hl | hl
          · exact copyTo_of_lt (Nat.lt_of_lt_of_le (Nat.add_lt_add_left hj _)
              (item_offset_le hsec hl))
          · exact copyTo_of_ge (Nat.le_add_right_of_le (item_offset_le hsec.symm hl))
      · have hlt' : g.rootStart + i * 32 / 512 < g.rootStart + k * 32 / 512 := by omega
        have hle := sector_end_le hlt' (Nat.le_refl _)
        have hki : k ≠ i := fun he => Nat.lt_irrefl _ (he ▸ hsec)
        have hge : (g.rootStart + k * 32 / 512) * 512 ≤ g.rootStart * 512 + k * 32 + j := by
          rw [← hka, Nat.add_assoc]
          exact Nat.le_add_right _ _
        rw [copyTo_of_ge (Nat.le_trans hle hge), if_neg hki]
    rw [← h.image_eq]
    unfold Image.setItem
    have h₁ : (image g (copyTo v.disk ((g.rootStart + i * 32 / 512) * 512) 512 buf)).fat =
        (image g v.disk).fat := by
      funext c
      simp only [image]
      split
      next ht =>
        have hlt := (entry_address hg ht.2).1
        exact le16_congr (hlow _ (by omega)) (hlow _ (by omega))
      next => rfl
    have h₂ : (image g (copyTo v.disk ((g.rootStart + i * 32 / 512) * 512) 512 buf)).dir =
        Function.update (image g v.disk).dir i fun j => if j < 32 then item j else 0 := by
      funext k j
      rw [Function.update_apply]
      simp only [image]
      by_cases hj : j < 32
      · by_cases hk : k < g.rootEntCnt
        · rw [if_pos ⟨hk, hj⟩, hdir k hk j hj]
          split <;> simp [hk, hj]
        · have hki : k ≠ i := fun he => hk (he ▸ hi)
          simp [hk, hki]
      · rw [if_neg fun hc => hj hc.2]
        split
        · simp [hj]
        · simp [hj]
    have h₃ : (image g (copyTo v.disk ((g.rootStart + i * 32 / 512) * 512) 512 buf)).data =
        (image g v.disk).data := by
      funext c o
      simp only [image]
      split
      · exact hhigh _ (by omega)
      · rfl
    rw [← h₁, ← h₂, ← h₃]
  · obtain rfl : g.rootStart + i * 32 / 512 = s := Int.ofNat.inj (hc.curr.symm.trans hs)
    exact ⟨hlt, fun a ha => (copyTo_add ha).symm⟩

theorem writeDirEntry_shows (hw : Works dev) (hg : g.Ok) (h : Shows g v im)
    (hi : i < g.rootEntCnt) (item : DirItem) :
    ∃ v', writeDirEntry dev g v item i = (v', 0) ∧ Shows g v' (im.setItem i item) := by
  obtain ⟨hlt, -, -⟩ := item_address hg hi
  obtain ⟨v₁, hb, hsh, hca, -⟩ := breadSector_shows hw h hlt
  obtain ⟨v', hwr, hsh'⟩ := bwriteSector_item hw hg hsh hi hca item fun a _ => rfl
  refine ⟨v', ?_, hsh'⟩
  rw [writeDirEntry, if_neg (not_out_of_range hi)]
  simp only [hg.bytesPerSec, diritemSize, Int.toNat_natCast, hb]
  exact hwr

end Access

/-! ## Slots -/

/-- The end marker. -/
def IsEnd (item : DirItem) : Prop := item 0 = diritemNameEnd

/-- A slot marked free. -/
def IsFree (item : DirItem) : Prop := item 0 = diritemNameFree

/-- A slot in use. -/
def Live (item : DirItem) : Prop := ¬IsEnd item ∧ ¬IsFree item

/-- A live slot that the scans reach. -/
structure Visible (dir : Nat → DirItem) (n i : Nat) : Prop where
  lt : i < n
  live : Live (dir i)
  before : ∀ k < i, ¬IsEnd (dir k)

/-- The first visible slot with the name. -/
structure Finds (dir : Nat → DirItem) (n : Nat) (name : List UInt8) (i : Nat) : Prop
    extends Visible dir n i where
  name_eq : (dir i).name = name
  first : ∀ k < i, Live (dir k) → (dir k).name ≠ name

/-- No visible slot has the name. -/
def Absent (dir : Nat → DirItem) (n : Nat) (name : List UInt8) : Prop :=
  ∀ i, Visible dir n i → (dir i).name ≠ name

/-- `p_index` after a scan that found nothing. -/
def Slot (dir : Nat → DirItem) (n : Nat) (pIndex : Int) : Prop :=
  (pIndex = -1 ∧ ∀ k < n, Live (dir k)) ∨
    ∃ q : Nat, pIndex = q ∧ q < n ∧
      (IsEnd (dir q) ∧ (∀ k < q, ¬IsEnd (dir k)) ∨ IsFree (dir q) ∧ ∀ k < n, ¬IsEnd (dir k))

theorem DirItem.Agree.zero {a b : DirItem} (h : a.Agree b) : a 0 = b 0 := h 0 (by decide)

theorem Finds.unique {dir : Nat → DirItem} {n : Nat} {name : List UInt8} {i j : Nat}
    (hi : Finds dir n name i) (hj : Finds dir n name j) : i = j := by
  rcases Nat.lt_trichotomy i j with h | h | h
  · exact absurd hi.name_eq (hj.first i h hi.live)
  · exact h
  · exact absurd hj.name_eq (hi.first j h hj.live)

theorem Finds.not_absent {dir : Nat → DirItem} {n : Nat} {name : List UInt8} {i : Nat}
    (h : Finds dir n name i) : ¬Absent dir n name :=
  fun ha => ha i h.toVisible h.name_eq

theorem diritemNameMatch_iff {item : DirItem} {path : List UInt8} :
    diritemNameMatch item path = true ↔ item.name = toSfn path := by
  rw [diritemNameMatch, decide_eq_true_iff, eq_comm]

/-- A scan for `name` has passed the slots before `i`. -/
structure Passed (dir : Nat → DirItem) (name : List UInt8) (i : Nat) : Prop where
  no_end : ∀ k < i, ¬IsEnd (dir k)
  no_name : ∀ k < i, Live (dir k) → (dir k).name ≠ name

namespace Passed

variable {dir : Nat → DirItem} {name : List UInt8} {i n : Nat}

theorem zero : Passed dir name 0 :=
  ⟨fun k hk => absurd hk (Nat.not_lt_zero k), fun k hk => absurd hk (Nat.not_lt_zero k)⟩

theorem succ (h : Passed dir name i) (he : ¬IsEnd (dir i))
    (hn : Live (dir i) → (dir i).name ≠ name) : Passed dir name (i + 1) := by
  constructor <;> intro k hk <;> obtain hlt | rfl := Nat.lt_succ_iff_lt_or_eq.mp hk
  · exact h.no_end k hlt
  · exact he
  · exact h.no_name k hlt
  · exact hn

/-- At the end of the directory, or at its end marker, the name is absent. -/
theorem absent (h : Passed dir name i) (hi : i = n ∨ IsEnd (dir i)) : Absent dir n name := by
  intro k hk
  rcases Nat.lt_or_ge k i with hlt | hge
  · exact h.no_name k hlt hk.live
  · rcases hi with rfl | he
    · exact absurd hk.lt (Nat.not_lt_of_le hge)
    · rcases Nat.eq_or_lt_of_le hge with rfl | hgt
      · exact absurd he hk.live.1
      · exact absurd he (hk.before i hgt)

theorem finds (h : Passed dir name i) (hi : i < n) (hl : Live (dir i))
    (hn : (dir i).name = name) : Finds dir n name i :=
  ⟨⟨hi, hl, h.no_end⟩, hn, h.no_name⟩

end Passed

/-- The last slot that `p_index` was set to, while no end marker was met. -/
def LastFree (dir : Nat → DirItem) (i : Nat) (pIndex : Int) : Prop :=
  (pIndex = -1 ∧ ∀ k < i, Live (dir k)) ∨ ∃ q : Nat, pIndex = q ∧ q < i ∧ IsFree (dir q)

theorem LastFree.succ {dir : Nat → DirItem} {i : Nat} {pIndex : Int}
    (h : LastFree dir i pIndex) (hl : Live (dir i)) : LastFree dir (i + 1) pIndex := by
  rcases h with ⟨hp, hall⟩ | ⟨q, hq, hlt, hf⟩
  · refine .inl ⟨hp, fun k hk => ?_⟩
    obtain hlt | rfl := Nat.lt_succ_iff_lt_or_eq.mp hk
    · exact hall k hlt
    · exact hl
  · exact .inr ⟨q, hq, Nat.lt_succ_of_lt hlt, hf⟩

section Scan

variable {dev : Dev} {g : Fat} {v : Volume} {im : Image} {path : List UInt8}

/-- How the scan of `fatfs_open` can end. -/
def OpenOutcome (g : Fat) (im : Image) (path : List UInt8) (v : Volume)
    (r : Option Nat × Int) : Prop :=
  (∃ i : Nat, Finds im.dir g.rootEntCnt (toSfn path) i ∧ r = (some (i * 32 % 512), (i : Int)) ∧
    (itemAt v (i * 32 % 512)).Agree (im.dir i)) ∨
  Absent im.dir g.rootEntCnt (toSfn path) ∧ r.1 = none ∧ Slot im.dir g.rootEntCnt r.2

theorem openScan_loop (hw : Works dev) (hg : g.Ok) (n : Nat) :
    ∀ {v : Volume} {i : Nat} {pIndex : Int}, Shows g v im → i + n = g.rootEntCnt →
      Passed im.dir (toSfn path) i → LastFree im.dir i pIndex →
      ∃ v' r, openScan dev g path n v i pIndex = (v', some r) ∧ Shows g v' im ∧
        OpenOutcome g im path v' r := by
  induction n with
  | zero =>
    intro v i pIndex h hn hpass hp
    refine ⟨v, (none, pIndex), rfl, h, .inr ⟨hpass.absent (.inl hn), rfl, ?_⟩⟩
    obtain rfl : i = g.rootEntCnt := hn
    rcases hp with hp | ⟨q, hq, hlt, hf⟩
    · exact .inl hp
    · exact .inr ⟨q, hq, hlt, .inr ⟨hf, hpass.no_end⟩⟩
  | succ n ih =>
    intro v i pIndex h hn hpass hp
    have hi : i < g.rootEntCnt := by omega
    obtain ⟨v₁, hr, h₁, -, hag⟩ := readDirEntry_shows hw hg h hi
    simp only [openScan, hr, hag.zero, hag.nameMatch]
    by_cases h0 : im.dir i 0 = diritemNameEnd
    · rw [if_pos h0]
      exact ⟨v₁, (none, (i : Int)), rfl, h₁,
        .inr ⟨hpass.absent (.inr h0), rfl, .inr ⟨i, rfl, hi, .inl ⟨h0, hpass.no_end⟩⟩⟩⟩
    rw [if_neg h0]
    by_cases hf : im.dir i 0 = diritemNameFree
    · rw [if_pos hf]
      exact ih h₁ (by omega) (hpass.succ h0 fun hl => absurd hf hl.2)
        (.inr ⟨i, rfl, Nat.lt_succ_self i, hf⟩)
    rw [if_neg hf]
    by_cases hm : diritemNameMatch (im.dir i) path = true
    · rw [if_pos hm]
      exact ⟨v₁, _, rfl, h₁,
        .inl ⟨i, hpass.finds hi ⟨h0, hf⟩ (diritemNameMatch_iff.mp hm), rfl, hag⟩⟩
    · rw [if_neg hm]
      exact ih h₁ (by omega) (hpass.succ h0 fun _ => mt diritemNameMatch_iff.mpr hm)
        (hp.succ ⟨h0, hf⟩)

theorem openScan_shows (hw : Works dev) (hg : g.Ok) (h : Shows g v im) (path : List UInt8) :
    ∃ v' r, openScan dev g path g.rootEntCnt v 0 (-1) = (v', some r) ∧ Shows g v' im ∧
      OpenOutcome g im path v' r :=
  openScan_loop hw hg g.rootEntCnt h (Nat.zero_add _) .zero
    (.inl ⟨rfl, fun k hk => absurd hk (Nat.not_lt_zero k)⟩)

/-- The first cluster that `fatfs_open` and `fatfs_unlink` free from. -/
theorem clusterT_first (item : DirItem) :
    clusterT (item.fstClusHI * 65536 + item.fstClusL0) = item.fstClusL0 := by
  have h := le16_lt item 26
  unfold clusterT DirItem.fstClusL0
  omega

/-- How `fatfs_unlink` can end: it frees the chain of the slot it finds and
clears the slot, or answers `-1`. -/
def UnlinkOutcome (dev : Dev) (g : Fat) (fuel : Nat) (im : Image) (path : List UInt8)
    (r : Option (Volume × Int)) : Prop :=
  (∃ i : Nat, Finds im.dir g.rootEntCnt (toSfn path) i ∧ ∃ v, Shows g v im ∧
    r = (clusterFreeChain dev g fuel v (im.dir i).fstClusL0).map fun v =>
      writeDirEntry dev g v (fun _ => 0) i) ∨
  Absent im.dir g.rootEntCnt (toSfn path) ∧ ∃ v, Shows g v im ∧ r = some (v, -1)

theorem unlinkScan_loop (hw : Works dev) (hg : g.Ok) (fuel n : Nat) :
    ∀ {v : Volume} {i : Nat}, Shows g v im → i + n = g.rootEntCnt →
      Passed im.dir (toSfn path) i →
      UnlinkOutcome dev g fuel im path (unlinkScan dev g fuel path n v i) := by
  induction n with
  | zero =>
    intro v i h hn hpass
    exact .inr ⟨hpass.absent (.inl hn), v, h, rfl⟩
  | succ n ih =>
    intro v i h hn hpass
    have hi : i < g.rootEntCnt := by omega
    obtain ⟨v₁, hr, h₁, -, hag⟩ := readDirEntry_shows hw hg h hi
    simp only [unlinkScan, hr, hag.zero, hag.nameMatch, hag.fstClusHI, hag.fstClusL0,
      clusterT_first]
    by_cases h0 : im.dir i 0 = diritemNameEnd
    · rw [if_pos h0]
      exact .inr ⟨hpass.absent (.inr h0), v₁, h₁, rfl⟩
    rw [if_neg h0]
    by_cases hf : im.dir i 0 = diritemNameFree
    · rw [if_pos hf]
      exact ih h₁ (by omega) (hpass.succ h0 fun hl => absurd hf hl.2)
    rw [if_neg hf]
    by_cases hm : diritemNameMatch (im.dir i) path = true
    · rw [if_pos hm]
      exact .inl ⟨i, hpass.finds hi ⟨h0, hf⟩ (diritemNameMatch_iff.mp hm), v₁, h₁, rfl⟩
    · rw [if_neg hm]
      exact ih h₁ (by omega) (hpass.succ h0 fun _ => mt diritemNameMatch_iff.mpr hm)

theorem fatfsUnlink_shows (hw : Works dev) (hg : g.Ok) (h : Shows g v im) (fuel : Nat)
    (path : List UInt8) :
    UnlinkOutcome dev g fuel im path (fatfsUnlink dev g fuel v path) :=
  unlinkScan_loop hw hg fuel g.rootEntCnt h (Nat.zero_add _) .zero

end Scan

/-! ## Listing -/

/-- An entry that `fatfs_readdir` reports. -/
def ListedItem (item : DirItem) : Prop :=
  Live item ∧ (diritemGetType item = .normal ∨ diritemGetType item = .dir)

/-- Every entry from `index` on that `fatfs_readdir` reports, called until it
answers `-1`, at most `n` times. -/
def readdirAll (dev : Dev) (g : Fat) (dirent : Dirent) : Nat → Volume → (index : Nat) → List Dirent
  | 0, _, _ => []
  | n + 1, v, index =>
    match fatfsReaddir dev g v index dirent with
    | (_, _, none) => []
    | (v, index, some d) => d :: readdirAll dev g dirent n v index

section Listing

variable {dev : Dev} {g : Fat} {v : Volume} {im : Image}

/-- Slot `j` is reported by a listing that starts at `i`. -/
def ListedFrom (dir : Nat → DirItem) (n i j : Nat) : Prop :=
  i ≤ j ∧ j < n ∧ ListedItem (dir j) ∧ ∀ k, i ≤ k → k < j → ¬IsEnd (dir k)

/-- How a call of `fatfs_readdir` at `i` can end. -/
def ReaddirOutcome (g : Fat) (im : Image) (i : Nat) (r : Nat × Option Dirent) : Prop :=
  (∃ d, r = (d.index + 1, some d) ∧ ListedFrom im.dir g.rootEntCnt i d.index ∧
    ∀ k, ListedFrom im.dir g.rootEntCnt i k → d.index ≤ k) ∨
  r.2 = none ∧ ∀ k, ¬ListedFrom im.dir g.rootEntCnt i k

theorem ListedFrom.succ {dir : Nat → DirItem} {n i j : Nat} (h : ListedFrom dir n i j)
    (hij : i ≠ j) : ListedFrom dir n (i + 1) j :=
  ⟨Nat.lt_of_le_of_ne h.1 hij, h.2.1, h.2.2.1, fun k hk => h.2.2.2 k (Nat.le_of_succ_le hk)⟩

theorem ListedFrom.pred {dir : Nat → DirItem} {n i j : Nat} (h : ListedFrom dir n (i + 1) j)
    (he : ¬IsEnd (dir i)) : ListedFrom dir n i j := by
  refine ⟨Nat.le_of_succ_le h.1, h.2.1, h.2.2.1, fun k hk hkj => ?_⟩
  rcases Nat.eq_or_lt_of_le hk with rfl | hlt
  · exact he
  · exact h.2.2.2 k hlt hkj

theorem readdirLoop_shows (hw : Works dev) (hg : g.Ok) (dirent : Dirent) (n : Nat) :
    ∀ {v : Volume} {i : Nat}, Shows g v im → i + n = g.rootEntCnt →
      ∃ v' r, readdirLoop dev g dirent n v i = (v', r) ∧ Shows g v' im ∧
        ReaddirOutcome g im i r := by
  induction n with
  | zero =>
    intro v i h hn
    refine ⟨v, (i, none), rfl, h, .inr ⟨rfl, fun k hk => ?_⟩⟩
    have := hk.1
    have := hk.2.1
    omega
  | succ n ih =>
    intro v i h hn
    have hi : i < g.rootEntCnt := by omega
    obtain ⟨v₁, hr, h₁, -, hag⟩ := readDirEntry_shows hw hg h hi
    simp only [readdirLoop, hr, hag.zero, hag.getType]
    by_cases h0 : im.dir i 0 = diritemNameEnd
    · rw [if_pos h0]
      refine ⟨v₁, _, rfl, h₁, .inr ⟨rfl, fun k hk => ?_⟩⟩
      rcases Nat.eq_or_lt_of_le hk.1 with rfl | hlt
      · exact hk.2.2.1.1.1 h0
      · exact hk.2.2.2 i (Nat.le_refl i) hlt h0
    rw [if_neg h0]
    by_cases hl : ListedItem (im.dir i)
    · rw [if_pos ⟨hl.1.2, hl.2⟩]
      refine ⟨v₁, _, rfl, h₁, .inl ⟨⟨i, _, _, _⟩, rfl, ?_, ?_⟩⟩
      · exact ⟨Nat.le_refl i, hi, hl, fun k hk hki => absurd hki (Nat.not_lt_of_le hk)⟩
      · exact fun k hk => hk.1
    · rw [if_neg fun hc => hl ⟨⟨h0, hc.1⟩, hc.2⟩]
      have hne : ∀ k, ListedFrom im.dir g.rootEntCnt i k → i ≠ k := fun k hk he =>
        hl (he ▸ hk.2.2.1)
      obtain ⟨v', r, hr', h', ho⟩ := ih (i := i + 1) h₁ (by omega)
      refine ⟨v', r, hr', h', ?_⟩
      rcases ho with ⟨d, rfl, hd, hmin⟩ | ⟨hr, hno⟩
      · exact .inl ⟨d, rfl, hd.pred h0, fun k hk => hmin k (hk.succ (hne k hk))⟩
      · exact .inr ⟨hr, fun k hk => hno k (hk.succ (hne k hk))⟩

theorem fatfsReaddir_shows (hw : Works dev) (hg : g.Ok) (h : Shows g v im) (dirent : Dirent)
    (i : Nat) :
    ∃ v' r, fatfsReaddir dev g v i dirent = (v', r) ∧ Shows g v' im ∧
      ReaddirOutcome g im i r := by
  rcases Nat.le_total i g.rootEntCnt with hle | hge
  · exact readdirLoop_shows hw hg dirent _ h (Nat.add_sub_cancel' hle)
  · refine ⟨v, (i, none), ?_, h, .inr ⟨rfl, fun k hk => ?_⟩⟩
    · rw [fatfsReaddir, Nat.sub_eq_zero_of_le hge]
      rfl
    · have := hk.1
      have := hk.2.1
      omega

/-- The slots that a whole listing reports. -/
theorem mem_readdirAll (hw : Works dev) (hg : g.Ok) (dirent : Dirent) (n : Nat) :
    ∀ {v : Volume} {i : Nat}, Shows g v im → g.rootEntCnt - i < n → ∀ k,
      k ∈ (readdirAll dev g dirent n v i).map Dirent.index ↔
        ListedFrom im.dir g.rootEntCnt i k := by
  induction n with
  | zero => exact fun _ hn => absurd hn (Nat.not_lt_zero _)
  | succ n ih =>
    intro v i h hn k
    obtain ⟨v', r, hr, h', ⟨d, rfl, hd, hmin⟩ | ⟨hr', hno⟩⟩ := fatfsReaddir_shows hw hg h dirent i
    · simp only [readdirAll, hr, List.map_cons, List.mem_cons]
      have hlt := hd.2.1
      have hle := hd.1
      rw [ih h' (by omega) k]
      constructor
      · rintro (rfl | hk)
        · exact hd
        · refine ⟨by have := hk.1; omega, hk.2.1, hk.2.2.1, fun m hm hmk => ?_⟩
          rcases Nat.lt_trichotomy m d.index with hmd | rfl | hmd
          · exact hd.2.2.2 m hm hmd
          · exact hd.2.2.1.1.1
          · exact hk.2.2.2 m hmd hmk
      · intro hk
        rcases Nat.eq_or_lt_of_le (hmin k hk) with he | hlt'
        · exact .inl he.symm
        · exact .inr ⟨hlt', hk.2.1, hk.2.2.1,
            fun m hm => hk.2.2.2 m (Nat.le_trans hle (Nat.le_of_succ_le hm))⟩
    · obtain ⟨index, d⟩ := r
      obtain rfl : d = none := hr'
      simp [readdirAll, hr, hno k]

end Listing

/-! ## Closing -/

/-- The entry that `fatfs_close` leaves: the size and the first cluster are
those of the file. -/
def closedItem (item : DirItem) (file : File) : DirItem :=
  put16 (put16 (put32 item 28 file.size) 20 (file.sblk / 65536)) 26 (file.sblk % 65536)

section Closed

variable {dev : Dev} {g : Fat} {v : Volume} {im : Image} {file : File} (item : DirItem)

/-- A store into the entry at `p` of a buffer. -/
theorem put16_add (m : Nat → UInt8) (p a x j : Nat) :
    put16 m (p + a) x (p + j) = put16 (fun b => m (p + b)) a x j := by
  have h₁ : (p + j = p + a) = (j = a) := by rw [Nat.add_right_inj]
  have h₂ : (p + j = p + a + 1) = (j = a + 1) := by rw [Nat.add_assoc, Nat.add_right_inj]
  simp only [put16, h₁, h₂]

theorem put32_add (m : Nat → UInt8) (p a x j : Nat) :
    put32 m (p + a) x (p + j) = put32 (fun b => m (p + b)) a x j := by
  have h : (fun b => put16 m (p + a) x (p + b)) = put16 (fun b => m (p + b)) a x :=
    funext fun b => put16_add m p a x b
  rw [put32, put32, Nat.add_assoc, put16_add, h]

theorem closedItem_name (file : File) : (closedItem item file).name = item.name := by
  refine List.map_congr_left fun j hj => ?_
  have hlt : j < 11 := List.mem_range.mp hj
  rw [closedItem, put16_of_ne (by omega) (by omega), put16_of_ne (by omega) (by omega),
    put32_of_not_mem (by omega)]

theorem closedItem_fstClusL0 (file : File) :
    (closedItem item file).fstClusL0 = file.sblk % 65536 := by
  rw [DirItem.fstClusL0, closedItem, le16_put16, Nat.mod_mod]

theorem closedItem_fstClusHI (file : File) :
    (closedItem item file).fstClusHI = file.sblk / 65536 % 65536 := by
  rw [DirItem.fstClusHI, closedItem, le16_put16_of_ne (by decide), le16_put16]

theorem closedItem_fileSize (file : File) (hs : file.size < 4294967296) :
    (closedItem item file).fileSize = file.size := by
  have h : le32 (closedItem item file) 28 = le32 (put32 item 28 file.size) 28 :=
    le32_congr fun i hi => by
      rw [closedItem, put16_of_ne (by omega) (by omega), put16_of_ne (by omega) (by omega)]
  rw [DirItem.fileSize, h, le32_put32, Nat.mod_eq_of_lt hs]

theorem closedItem_agree (file : File) {a b : DirItem} (h : a.Agree b) :
    (closedItem a file).Agree (closedItem b file) := fun j hj => by
  simp only [closedItem, put32, put16, h j hj]

theorem setItem_agree (im : Image) (i : Nat) (item : DirItem) :
    ((im.setItem i item).dir i).Agree item := fun j hj => by
  simp [Image.setItem, hj]

theorem setItem_congr (im : Image) (i : Nat) {a b : DirItem} (h : a.Agree b) :
    im.setItem i a = im.setItem i b := by
  have he : (fun j => if j < 32 then a j else 0) = fun j => if j < 32 then b j else 0 := by
    funext j
    split
    next hj => exact h j hj
    next => rfl
  rw [Image.setItem, Image.setItem, he]

/-- `fatfs_close` rewrites the entry `p_index` and nothing else. -/
theorem fatfsClose_shows (hw : Works dev) (hg : g.Ok) (h : Shows g v im) {i : Nat}
    (hp : file.pIndex = i) (hi : i < g.rootEntCnt) :
    Shows g (fatfsClose dev g v file) (im.setItem i (closedItem (im.dir i) file)) := by
  have hro : ¬file.mode &&& oRdonly ≠ 0 := by simp [oRdonly]
  obtain ⟨v₁, hr, h₁, hc, hag⟩ := readDirEntry_shows hw hg h hi
  unfold fatfsClose
  rw [if_neg hro, hp, hr]
  dsimp only
  generalize hbuf : put16 _ _ _ = buffer
  have hitem : itemAt { v₁ with fatBuffer := buffer } (i * 32 % 512) =
      closedItem (itemAt v₁ (i * 32 % 512)) file := by
    funext j
    rw [← hbuf]
    simp only [itemAt, closedItem, put16_add, put32_add]
    rfl
  have hout : ∀ a, a < i * 32 % 512 ∨ i * 32 % 512 + 32 ≤ a → buffer a = v₁.fatBuffer a := by
    intro a ha
    rw [← hbuf, put16_of_ne (by omega) (by omega), put16_of_ne (by omega) (by omega),
      put32_of_not_mem (by omega)]
  have hsame : ∀ a < 512,
      copyTo buffer (i * 32 % 512) 32 (closedItem (itemAt v₁ (i * 32 % 512)) file) a =
        copyTo v₁.fatBuffer (i * 32 % 512) 32 (closedItem (itemAt v₁ (i * 32 % 512)) file) a := by
    intro a _
    unfold copyTo
    split
    · rfl
    · exact hout a (by omega)
  obtain ⟨v₂, hwr, h₂⟩ := bwriteSector_item hw hg h₁ hi hc _ hsame
  rw [hitem, writeDirEntry_cached (v := { v₁ with fatBuffer := buffer }) hg hi hc.curr]
  rw [hwr, ← setItem_congr im i (closedItem_agree file hag)]
  exact h₂

/-- An index outside the directory: nothing is written. -/
theorem fatfsClose_of_out (hp : file.pIndex < 0 ∨ file.pIndex ≥ g.rootEntCnt) :
    fatfsClose dev g v file = v := by
  have hro : ¬file.mode &&& oRdonly ≠ 0 := by simp [oRdonly]
  have hr : readDirEntry dev g v file.pIndex = (v, none) := if_pos hp
  rw [fatfsClose, if_neg hro, hr]

end Closed

/-! ## Opening -/

section Created

variable (item : DirItem) (attr : UInt8) (path : List UInt8)

theorem le16_put32_of_not_mem {m : Nat → UInt8} {a b x : Nat} (h : b + 1 < a ∨ a + 4 ≤ b) :
    le16 (put32 m a x) b = le16 m b :=
  le16_congr (put32_of_not_mem (by omega)) (put32_of_not_mem (by omega))

theorem diritemInit_name : (diritemInit item attr path).name = toSfn path := by
  refine List.map_congr_left fun j hj => ?_
  have hlt : j < 11 := List.mem_range.mp hj
  have hget : (toSfn path).getD j 0 = toSfnLoop path (fun _ => 32) 0 j := by
    simp [toSfn, sfnLen, hlt]
  have h₁ : j ≠ 11 := by omega
  have h₂ : j ≠ 12 := by omega
  simp only [diritemInit]
  rw [put16_of_ne (by omega) (by omega), put16_of_ne (by omega) (by omega),
    put16_of_ne (by omega) (by omega), put16_of_ne (by omega) (by omega),
    put16_of_ne (by omega) (by omega), if_neg h₁, if_neg h₂, put32_of_not_mem (by omega),
    put16_of_ne (by omega) (by omega), put16_of_ne (by omega) (by omega),
    copyTo_zero_of_lt (show j < sfnLen from hlt), hget]

/-- Bytes 20 and on, apart from the times, before the attribute is set. -/
theorem diritemInit_first :
    (diritemInit item attr path).fstClusHI = 0 ∧
      (diritemInit item attr path).fstClusL0 = fatClusterInvalid ∧
      (diritemInit item attr path).fileSize = 0 := by
  have hcopy : ∀ m : Nat → UInt8, ∀ a, 12 < a →
      (fun b => if b = 11 then attr else if b = 12 then 0 else m b) a = m a := fun m a ha => by
    have h₁ : a ≠ 11 := by omega
    have h₂ : a ≠ 12 := by omega
    simp only [h₁, h₂, if_false]
  have hcopy16 : ∀ m : Nat → UInt8, ∀ a, 12 < a →
      le16 (fun b => if b = 11 then attr else if b = 12 then 0 else m b) a = le16 m a :=
    fun m a ha => le16_congr (hcopy m a ha) (hcopy m (a + 1) (by omega))
  refine ⟨?_, ?_, ?_⟩
  · simp only [DirItem.fstClusHI, diritemInit]
    rw [le16_put16_of_ne (by decide), le16_put16_of_ne (by decide), le16_put16_of_ne (by decide),
      le16_put16_of_ne (by decide), le16_put16_of_ne (by decide),
      hcopy16 _ _ (by decide),
      le16_put32_of_not_mem (by decide), le16_put16_of_ne (by decide), le16_put16]
    rfl
  · simp only [DirItem.fstClusL0, diritemInit]
    rw [le16_put16_of_ne (by decide), le16_put16_of_ne (by decide), le16_put16_of_ne (by decide),
      le16_put16_of_ne (by decide), le16_put16_of_ne (by decide),
      hcopy16 _ _ (by decide),
      le16_put32_of_not_mem (by decide), le16_put16]
    rfl
  · have h : ∀ i < 4, diritemInit item attr path (28 + i) =
        put32 (put16 (put16 (copyTo item 0 sfnLen fun j => (toSfn path).getD j 0) 20
          (fatClusterInvalid / 65536)) 26 (fatClusterInvalid % 65536)) 28 0 (28 + i) := by
      intro i hi
      simp only [diritemInit]
      rw [put16_of_ne (by omega) (by omega), put16_of_ne (by omega) (by omega),
        put16_of_ne (by omega) (by omega), put16_of_ne (by omega) (by omega),
        put16_of_ne (by omega) (by omega)]
      exact hcopy _ (28 + i) (by omega)
    rw [DirItem.fileSize, le32_congr h, le32_put32]

end Created

section Open

variable {dev : Dev} {g : Fat} {v : Volume} {im : Image} {path : List UInt8} {file : File}

/-- The file that `fatfs_open` sets up for slot `i`. -/
def openedFile (im : Image) (file : File) (i : Nat) : File :=
  readFromDiritem file (im.dir i) i

/-- `fatfs_open` found the name in slot `i`. -/
structure OpenFound (dev : Dev) (g : Fat) (fuel : Nat) (im : Image) (path : List UInt8)
    (file : File) (r : Option (Volume × File × Int)) (i : Nat) (v : Volume) : Prop where
  finds : Finds im.dir g.rootEntCnt (toSfn path) i
  shows : Shows g v im
  result : r =
    if file.mode &&& oTrunc ≠ 0 then
      (clusterFreeChain dev g fuel v (im.dir i).fstClusL0).map fun v =>
        (v, { openedFile im file i with
          sblk := fatClusterInvalid, cblk := fatClusterInvalid, size := 0 }, 0)
    else some (v, openedFile im file i, 0)

/-- `fatfs_open` created the entry `item` in slot `q`. -/
structure OpenCreated (g : Fat) (im : Image) (path : List UInt8) (file : File)
    (r : Option (Volume × File × Int)) (q : Nat) (v : Volume) (item : DirItem) : Prop where
  absent : Absent im.dir g.rootEntCnt (toSfn path)
  slot : Slot im.dir g.rootEntCnt q
  lt : q < g.rootEntCnt
  creat : file.mode &&& oCreat ≠ 0
  shows : Shows g v (im.setItem q item)
  result : r = some (v, readFromDiritem file item q, 0)
  name_eq : item.name = toSfn path
  hi_eq : item.fstClusHI = 0
  lo_eq : item.fstClusL0 = fatClusterInvalid
  size_eq : item.fileSize = 0

/-- `fatfs_open` answered `-1`. -/
structure OpenFailed (g : Fat) (im : Image) (path : List UInt8) (file : File)
    (r : Option (Volume × File × Int)) (v : Volume) : Prop where
  absent : Absent im.dir g.rootEntCnt (toSfn path)
  why : file.mode &&& oCreat = 0 ∨ ∀ k < g.rootEntCnt, Live (im.dir k)
  shows : Shows g v im
  result : r = some (v, file, -1)

theorem fatfsOpen_shows (hw : Works dev) (hg : g.Ok) (h : Shows g v im) (fuel : Nat)
    (path : List UInt8) (file : File) :
    (∃ i v', OpenFound dev g fuel im path file (fatfsOpen dev g fuel v path file) i v') ∨
      (∃ q v' item, OpenCreated g im path file (fatfsOpen dev g fuel v path file) q v' item) ∨
      ∃ v', OpenFailed g im path file (fatfsOpen dev g fuel v path file) v' := by
  obtain ⟨v₁, r, hs, h₁, ⟨i, hf, rfl, hag⟩ | ⟨ha, hr, hp⟩⟩ := openScan_shows hw hg h path
  · refine .inl ⟨i, v₁, hf, h₁, ?_⟩
    simp only [fatfsOpen, hs, hag.readFrom]
    rw [show clusterT (readFromDiritem file (im.dir i) i).sblk = (im.dir i).fstClusL0 from
      clusterT_first _]
    rfl
  · obtain ⟨found, pIndex⟩ := r
    obtain rfl : found = none := hr
    by_cases hc : file.mode &&& oCreat = 0
    · refine .inr (.inr ⟨v₁, ha, .inl hc, h₁, ?_⟩)
      simp [fatfsOpen, hs, hc]
    rcases hp with ⟨hp, hall⟩ | ⟨q, hq, hlt, hslot⟩
    · refine .inr (.inr ⟨v₁, ha, .inr hall, h₁, ?_⟩)
      have hw' : writeDirEntry dev g v₁ (diritemInit v₁.stack 0 path) (-1) = (v₁, -1) :=
        if_pos (.inl (by decide))
      obtain rfl : pIndex = -1 := hp
      simp [fatfsOpen, hs, hc, hw']
    · obtain rfl : pIndex = q := hq
      obtain ⟨v₂, hwr, h₂⟩ := writeDirEntry_shows hw hg h₁ hlt (diritemInit v₁.stack 0 path)
      obtain ⟨hhi, hlo, hsz⟩ := diritemInit_first v₁.stack 0 path
      refine .inr (.inl ⟨q, v₂, diritemInit v₁.stack 0 path, ha, .inr ⟨q, rfl, hlt, hslot⟩,
        hlt, hc, h₂, ?_, diritemInit_name _ _ _, hhi, hlo, hsz⟩)
      simp [fatfsOpen, hs, hc, hwr]

end Open

end Wjos
