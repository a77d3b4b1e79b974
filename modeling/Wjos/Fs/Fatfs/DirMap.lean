/-
Wjos.Fs.Fatfs.DirMap — the root directory refines a set of names.

`mapStep` is what opening with `O_CREAT` and unlinking mean for the set of
names; `dirNames` reads that set off the directory. `DirInv` says that no
live slot lies behind an end marker and that live slots have different
names; it makes the first match of a scan the only one.

`fatfs_unlink` clears the whole slot. Byte 0 then is `DIRITEM_NAME_END`,
not `DIRITEM_NAME_FREE`, so the slots behind it are no longer reached.
`DirStepOk` excludes the unlinks where that matters: no live slot lies
behind the one that is removed.
-/
import Mathlib.Data.Set.Insert
import Wjos.Fs.Fatfs.Cluster
import Wjos.Fs.Fatfs.Directory
import Wjos.Lib.Run

namespace Wjos

open Lib

/-! ## Names -/

/-- No character of an 11-byte name is NUL. -/
theorem toSfnLoop_ne_zero (src : List UInt8) :
    ∀ (dest : Nat → UInt8) (curr : Nat), (∀ a, dest a ≠ 0) →
      ∀ a, toSfnLoop src dest curr a ≠ 0 := by
  have hupper : ∀ c : UInt8, 97 ≤ c ∧ c ≤ 122 → c - 97 + 65 ≠ 0 := by
    intro c ⟨h₁, h₂⟩ he
    have hz : ((c - 97).toNat + 65) % 256 = 0 := congrArg UInt8.toNat he
    have hsub : (c - 97).toNat = c.toNat - 97 := UInt8.toNat_sub_of_le _ _ h₁
    have hle : c.toNat ≤ 122 := UInt8.le_iff_toNat_le.mp h₂
    omega
  induction src with
  | nil => exact fun dest _ hd => hd
  | cons c src ih =>
    intro dest curr hd
    rw [toSfnLoop]
    split
    · exact hd
    next hc =>
      split
      · exact ih dest 8 hd
      · refine ih _ _ fun a => ?_
        split
        · split
          · exact hupper c ‹_›
          · exact fun he => hc (.inl he)
        · exact hd a

theorem toSfn_head (path : List UInt8) : (toSfn path).head? ≠ some diritemNameEnd := by
  have h := toSfnLoop_ne_zero path (fun _ => 32) 0 (fun _ => by decide) 0
  exact fun he => h (Option.some.inj he)

theorem isEnd_congr {a b : DirItem} (h : a.name = b.name) : IsEnd a ↔ IsEnd b := by
  have h₀ : some (a 0) = some (b 0) := congrArg List.head? h
  rw [IsEnd, IsEnd, Option.some.inj h₀]

theorem live_congr {a b : DirItem} (h : a.name = b.name) : Live a ↔ Live b := by
  have h₀ : some (a 0) = some (b 0) := congrArg List.head? h
  rw [Live, Live, IsEnd, IsEnd, IsFree, IsFree, Option.some.inj h₀]

/-- An entry made for a name that does not start with `0xE5` is live. -/
theorem live_of_name {item : DirItem} {path : List UInt8} (h : item.name = toSfn path)
    (hf : (toSfn path).head? ≠ some diritemNameFree) : Live item := by
  have h₀ : (toSfn path).head? = some (item 0) := congrArg List.head? h.symm
  exact ⟨fun he => toSfn_head path (h₀.trans (congrArg some he)),
    fun he => hf (h₀.trans (congrArg some he))⟩

/-! ## The set of names -/

/-- The names of the live slots. -/
def dirNames (n : Nat) (dir : Nat → DirItem) : Set (List UInt8) :=
  {name | ∃ i < n, Live (dir i) ∧ (dir i).name = name}

/-- What the calls mean for the set of names. -/
def mapStep (names : Set (List UInt8)) : FatEvent → Set (List UInt8)
  | .fatfsOpen _ path mode => if mode &&& oCreat ≠ 0 then insert (toSfn path) names else names
  | .fatfsUnlink path => names \ {toSfn path}
  | _ => names

/-- A directory as it is found: the visible names are different and the slots
behind the end marker are zero. -/
structure DirWellFormed (n : Nat) (dir : Nat → DirItem) : Prop where
  distinct : ∀ i j, Visible dir n i → Visible dir n j → (dir i).name = (dir j).name → i = j
  zero_after : ∀ i j, i < j → j < n → IsEnd (dir i) → ∀ b < 32, dir j b = 0

structure DirInv (n : Nat) (dir : Nat → DirItem) : Prop where
  no_hidden : ∀ i j, i < j → j < n → IsEnd (dir i) → ¬Live (dir j)
  distinct : ∀ i j, i < n → j < n → Live (dir i) → Live (dir j) →
    (dir i).name = (dir j).name → i = j

/-- The calls the refinement is about. An open has a descriptor of its own;
a new name finds a slot; no live slot lies behind one that is removed. -/
def DirStepOk (g : Fat) (s : FatFs) : FatEvent → Prop
  | .fatfsOpen h path mode =>
    s.files h = none ∧ (toSfn path).head? ≠ some diritemNameFree ∧
      (mode &&& oCreat ≠ 0 → Absent (image g s.vol.disk).dir g.rootEntCnt (toSfn path) →
        ∃ k < g.rootEntCnt, ¬Live ((image g s.vol.disk).dir k))
  | .fatfsUnlink path =>
    ∀ i, Finds (image g s.vol.disk).dir g.rootEntCnt (toSfn path) i →
      ∀ j, i < j → j < g.rootEntCnt → ¬Live ((image g s.vol.disk).dir j)
  | .fatfsClose _ => True
  | .fatfsReaddir _ => True
  | .fatfsRead _ _ => False
  | .fatfsWrite _ _ => False
  | .fatfsSeek _ _ _ => False

section Invariant

variable {n : Nat} {dir dir' : Nat → DirItem} {name : List UInt8} {i q : Nat}

theorem DirWellFormed.inv (h : DirWellFormed n dir) : DirInv n dir := by
  have hno : ∀ i j, i < j → j < n → IsEnd (dir i) → ¬Live (dir j) := fun i j hij hj he hl =>
    hl.1 (h.zero_after i j hij hj he 0 (by decide))
  refine ⟨hno, fun i j hi hj hli hlj hne => h.distinct i j ?_ ?_ hne⟩
  · exact ⟨hi, hli, fun k hk he => hno k i hk hi he hli⟩
  · exact ⟨hj, hlj, fun k hk he => hno k j hk hj he hlj⟩

namespace DirInv

theorem visible (h : DirInv n dir) (hi : i < n) (hl : Live (dir i)) : Visible dir n i :=
  ⟨hi, hl, fun k hk he => h.no_hidden k i hk hi he hl⟩

/-- A name is in the set when a scan finds it. -/
theorem mem_iff (h : DirInv n dir) : name ∈ dirNames n dir ↔ ∃ i, Finds dir n name i := by
  constructor
  · rintro ⟨i, hi, hl, rfl⟩
    refine ⟨i, h.visible hi hl, rfl, fun k hk hlk he => Nat.ne_of_lt hk ?_⟩
    exact h.distinct k i (by omega) hi hlk hl he
  · rintro ⟨i, hi⟩
    exact ⟨i, hi.lt, hi.live, hi.name_eq⟩

theorem absent_iff (h : DirInv n dir) : Absent dir n name ↔ name ∉ dirNames n dir := by
  constructor
  · rintro ha ⟨i, hi, hl, he⟩
    exact ha i (h.visible hi hl) he
  · intro hn i hi he
    exact hn ⟨i, hi.lt, hi.live, he⟩

/-- Only the names count. -/
theorem congr (h : DirInv n dir) (he : ∀ i < n, (dir' i).name = (dir i).name) :
    DirInv n dir' := by
  refine ⟨fun i j hij hj hend hl => ?_, fun i j hi hj hli hlj hne => ?_⟩
  · rw [isEnd_congr (he i (by omega))] at hend
    rw [live_congr (he j hj)] at hl
    exact h.no_hidden i j hij hj hend hl
  · rw [live_congr (he i hi)] at hli
    rw [live_congr (he j hj)] at hlj
    rw [he i hi, he j hj] at hne
    exact h.distinct i j hi hj hli hlj hne

end DirInv

theorem dirNames_congr (he : ∀ i < n, (dir' i).name = (dir i).name) :
    dirNames n dir' = dirNames n dir := by
  ext name
  constructor
  · rintro ⟨i, hi, hl, rfl⟩
    exact ⟨i, hi, (live_congr (he i hi)).mp hl, (he i hi).symm⟩
  · rintro ⟨i, hi, hl, rfl⟩
    exact ⟨i, hi, (live_congr (he i hi)).mpr hl, he i hi⟩

/-! ## A slot filled, a slot cleared -/

/-- The name `name` put into the slot that a scan for it left in `p_index`. -/
theorem DirInv.create (h : DirInv n dir) (hq : Slot dir n q) (ha : Absent dir n name)
    (hl : Live (dir' q)) (hn : (dir' q).name = name) (ho : ∀ k, k ≠ q → dir' k = dir k) :
    DirInv n dir' := by
  refine ⟨fun i j hij hj he hlj => ?_, fun i j hi hj hli hlj hne => ?_⟩
  · have hiq : i ≠ q := fun heq => hl.1 (heq ▸ he)
    rw [ho i hiq] at he
    by_cases hjq : j = q
    · subst hjq
      rcases hq with ⟨hq, -⟩ | ⟨q', hq, -, ⟨-, hbefore⟩ | ⟨-, hnone⟩⟩
      · exact absurd hq (by omega)
      · obtain rfl : j = q' := Int.ofNat.inj hq
        exact hbefore i hij he
      · exact hnone i (by omega) he
    · rw [ho j hjq] at hlj
      exact h.no_hidden i j hij hj he hlj
  · have hold : ∀ k < n, k ≠ q → Live (dir' k) → (dir' k).name ≠ name := fun k hk hkq hlk => by
      rw [ho k hkq] at hlk ⊢
      exact ha k (h.visible hk hlk)
    by_cases hiq : i = q
    · by_cases hjq : j = q
      · rw [hiq, hjq]
      · exact absurd (hne ▸ hiq ▸ hn) (hold j hj hjq hlj)
    · by_cases hjq : j = q
      · exact absurd (hne.trans (hjq ▸ hn)) (hold i hi hiq hli)
      · rw [ho i hiq] at hli hne
        rw [ho j hjq] at hlj hne
        exact h.distinct i j hi hj hli hlj hne

theorem dirNames_create (hqn : q < n) (hd : ¬Live (dir q)) (hl : Live (dir' q))
    (hn : (dir' q).name = name) (ho : ∀ k, k ≠ q → dir' k = dir k) :
    dirNames n dir' = insert name (dirNames n dir) := by
  ext x
  constructor
  · rintro ⟨i, hi, hli, rfl⟩
    by_cases hiq : i = q
    · exact .inl (by rw [hiq, hn])
    · rw [ho i hiq] at hli ⊢
      exact .inr ⟨i, hi, hli, rfl⟩
  · rintro (rfl | ⟨i, hi, hli, rfl⟩)
    · exact ⟨q, hqn, hl, hn⟩
    · have hiq : i ≠ q := fun he => hd (he ▸ hli)
      rw [← ho i hiq] at hli ⊢
      exact ⟨i, hi, hli, rfl⟩

/-- A slot that is offered for a new name is not live. -/
theorem Slot.not_live (hq : Slot dir n q) : ¬Live (dir q) := by
  rcases hq with ⟨hq, -⟩ | ⟨q', hq, -, hslot⟩
  · exact absurd hq (by omega)
  · obtain rfl : q = q' := Int.ofNat.inj hq
    rcases hslot with ⟨he, -⟩ | ⟨hf, -⟩
    · exact fun hl => hl.1 he
    · exact fun hl => hl.2 hf

/-- The last live slot turned into an end marker. -/
theorem DirInv.clear (h : DirInv n dir) (hlast : ∀ j, i < j → j < n → ¬Live (dir j))
    (hend : IsEnd (dir' i)) (ho : ∀ k, k ≠ i → dir' k = dir k) : DirInv n dir' := by
  have hni : ∀ k, Live (dir' k) → k ≠ i := fun k hl he => hl.1 (he ▸ hend)
  refine ⟨fun a b hab hb he hl => ?_, fun a b ha hb hla hlb hne => ?_⟩
  · have hbi := hni b hl
    rw [ho b hbi] at hl
    by_cases hai : a = i
    · exact hlast b (hai ▸ hab) hb hl
    · rw [ho a hai] at he
      exact h.no_hidden a b hab hb he hl
  · have hai := hni a hla
    have hbi := hni b hlb
    rw [ho a hai] at hla hne
    rw [ho b hbi] at hlb hne
    exact h.distinct a b ha hb hla hlb hne

theorem dirNames_clear (h : DirInv n dir) (hf : Finds dir n name i)
    (hend : IsEnd (dir' i)) (ho : ∀ k, k ≠ i → dir' k = dir k) :
    dirNames n dir' = dirNames n dir \ {name} := by
  ext x
  constructor
  · rintro ⟨k, hk, hl, rfl⟩
    have hki : k ≠ i := fun he => hl.1 (he ▸ hend)
    rw [ho k hki] at hl ⊢
    refine ⟨⟨k, hk, hl, rfl⟩, fun he => hki ?_⟩
    exact h.distinct k i hk hf.lt hl hf.live (he.trans hf.name_eq.symm)
  · rintro ⟨⟨k, hk, hl, rfl⟩, hne⟩
    have hki : k ≠ i := fun he => hne (by rw [he]; exact hf.name_eq)
    rw [← ho k hki] at hl ⊢
    exact ⟨k, hk, hl, rfl⟩

end Invariant

/-! ## One call -/

section Step

variable {dev : Dev} {g : Fat} {fuel : Nat} {s : FatFs} {im : Image} {path : List UInt8}

/-- The volume has the directory of `im` and the set of names is `names`. -/
def HasNames (g : Fat) (s : FatFs) (names : Set (List UInt8)) : Prop :=
  ∃ im, Shows g s.vol im ∧ DirInv g.rootEntCnt im.dir ∧ dirNames g.rootEntCnt im.dir = names

/-- An unlink that finds its name clears that slot and keeps the others. -/
theorem unlink_found (hw : Works dev) (hg : g.Ok) (hfuel : 65536 < fuel) (h : Shows g s.vol im)
    {i : Nat} (hi : Finds im.dir g.rootEntCnt (toSfn path) i) :
    ∃ s' im', fatStep dev g fuel s (.fatfsUnlink path) = some s' ∧ Shows g s'.vol im' ∧
      IsEnd (im'.dir i) ∧ ∀ k, k ≠ i → im'.dir k = im.dir k := by
  rcases fatfsUnlink_shows hw hg h fuel path with ⟨j, hj, v₁, h₁, hr⟩ | ⟨ha, -⟩
  · obtain rfl := hi.unique hj
    obtain ⟨v₂, im₂, hfree, h₂, hfreed⟩ :=
      clusterFreeChain_total hw hg h₁ hfuel (im.dir i).fstClusL0
    obtain ⟨v₃, hwr, h₃⟩ := writeDirEntry_shows hw hg h₂ hi.lt fun _ => 0
    refine ⟨{ s with vol := v₃ }, _, ?_, h₃, ?_, fun k hk => ?_⟩
    · simp only [fatStep, hr, hfree, Option.map_some, hwr]
    · exact (setItem_agree im₂ i _).zero
    · rw [setItem_dir_of_ne im₂ hk, hfreed.dir]
  · exact absurd ha hi.not_absent

theorem unlink_absent (hw : Works dev) (hg : g.Ok) (fuel : Nat) (h : Shows g s.vol im)
    (ha : Absent im.dir g.rootEntCnt (toSfn path)) :
    ∃ s', fatStep dev g fuel s (.fatfsUnlink path) = some s' ∧ Shows g s'.vol im := by
  rcases fatfsUnlink_shows hw hg h fuel path with ⟨j, hj, -⟩ | ⟨-, v', h', hr⟩
  · exact absurd ha hj.not_absent
  · exact ⟨{ s with vol := v' }, by simp only [fatStep, hr, Option.map_some], h'⟩

/-- What an open answers: without `O_CREAT` it succeeds for the names of the
set, and it changes no entry. -/
theorem open_result (hw : Works dev) (hg : g.Ok) (hfuel : 65536 < fuel) {v : Volume}
    (h : Shows g v im) (hinv : DirInv g.rootEntCnt im.dir) (path : List UInt8) (file : File)
    (hmode : file.mode &&& oCreat = 0) :
    ∃ v' file' r im', fatfsOpen dev g fuel v path file = some (v', file', r) ∧
      Shows g v' im' ∧ im'.dir = im.dir ∧
      (r = 0 ↔ toSfn path ∈ dirNames g.rootEntCnt im.dir) := by
  rcases fatfsOpen_shows hw hg h fuel path file with
    ⟨i, v₁, hf⟩ | ⟨q, v₁, item, hc⟩ | ⟨v₁, hx⟩
  · have hmem : toSfn path ∈ dirNames g.rootEntCnt im.dir := hinv.mem_iff.mpr ⟨i, hf.finds⟩
    rw [hf.result]
    by_cases ht : file.mode &&& oTrunc ≠ 0
    · obtain ⟨v₂, im₂, hfree, h₂, hfreed⟩ :=
        clusterFreeChain_total hw hg hf.shows hfuel (im.dir i).fstClusL0
      rw [if_pos ht, hfree]
      exact ⟨v₂, _, 0, im₂, rfl, h₂, hfreed.dir, by simp [hmem]⟩
    · rw [if_neg ht]
      exact ⟨v₁, _, 0, im, rfl, hf.shows, rfl, by simp [hmem]⟩
  · exact absurd hmode hc.creat
  · refine ⟨v₁, file, -1, im, hx.result, hx.shows, rfl, ?_⟩
    simp [hinv.absent_iff.mp hx.absent]

/-- One call follows `mapStep`. -/
theorem dirStep_refines (hw : Works dev) (hg : g.Ok) (hfuel : 65536 < fuel) (s : FatFs)
    (e : FatEvent) (names : Set (List UInt8)) (hr : HasNames g s names)
    (hp : DirStepOk g s e) :
    ∃ s', fatStep dev g fuel s e = some s' ∧ HasNames g s' (mapStep names e) := by
  obtain ⟨im, h, hinv, rfl⟩ := hr
  cases e with
  | fatfsOpen hd path mode =>
    obtain ⟨hnone, hhead, hroom⟩ := hp
    rw [h.image_eq] at hroom
    simp only [fatStep, hnone, mapStep]
    by_cases hmode : mode &&& oCreat = 0
    · obtain ⟨v', file', r, im', hres, h', hdir, -⟩ :=
        open_result hw hg hfuel h hinv path (fileNew mode) hmode
      rw [hres, if_neg (not_not_intro hmode)]
      refine ⟨_, rfl, im', ?_, hdir ▸ hinv, by rw [hdir]⟩
      dsimp only
      split
      · exact h'
      · exact h'
    · rw [if_pos hmode]
      rcases fatfsOpen_shows hw hg h fuel path (fileNew mode) with
        ⟨i, v₁, hf⟩ | ⟨q, v₁, item, hc⟩ | ⟨v₁, hx⟩
      · have hmem : toSfn path ∈ dirNames g.rootEntCnt im.dir := hinv.mem_iff.mpr ⟨i, hf.finds⟩
        rw [hf.result, Set.insert_eq_of_mem hmem]
        by_cases ht : (fileNew mode).mode &&& oTrunc ≠ 0
        · obtain ⟨v₂, im₂, hfree, h₂, hfreed⟩ :=
            clusterFreeChain_total hw hg hf.shows hfuel (im.dir i).fstClusL0
          rw [if_pos ht, hfree]
          exact ⟨_, rfl, im₂, h₂, hfreed.dir ▸ hinv, by rw [hfreed.dir]⟩
        · rw [if_neg ht]
          exact ⟨_, rfl, im, hf.shows, hinv, rfl⟩
      · rw [hc.result]
        have hag := setItem_agree im q item
        have hname : ((im.setItem q item).dir q).name = toSfn path := hag.name.trans hc.name_eq
        have hlive : Live ((im.setItem q item).dir q) := live_of_name hname hhead
        have ho : ∀ k, k ≠ q → (im.setItem q item).dir k = im.dir k :=
          fun k hk => setItem_dir_of_ne im hk item
        exact ⟨_, rfl, _, hc.shows, hinv.create hc.slot hc.absent hlive hname ho,
          dirNames_create hc.lt hc.slot.not_live hlive hname ho⟩
      · rcases hx.why with hw' | hfull
        · exact absurd hw' hmode
        · obtain ⟨k, hk, hnl⟩ := hroom hmode hx.absent
          exact absurd (hfull k hk) hnl
  | fatfsUnlink path =>
    simp only [DirStepOk, h.image_eq] at hp
    by_cases hfound : ∃ i, Finds im.dir g.rootEntCnt (toSfn path) i
    · obtain ⟨i, hi⟩ := hfound
      obtain ⟨s', im', hs, h', hend, ho⟩ := unlink_found hw hg hfuel h hi
      exact ⟨s', hs, im', h', hinv.clear (hp i hi) hend ho, dirNames_clear hinv hi hend ho⟩
    · have hnm : toSfn path ∉ dirNames g.rootEntCnt im.dir := mt hinv.mem_iff.mp hfound
      obtain ⟨s', hs, h'⟩ := unlink_absent hw hg fuel h (hinv.absent_iff.mpr hnm)
      refine ⟨s', hs, im, h', hinv, ?_⟩
      rw [mapStep, Set.sdiff_singleton_eq_self hnm]
  | fatfsClose hd =>
    simp only [fatStep]
    cases hfile : s.files hd with
    | none => exact ⟨s, rfl, im, h, hinv, rfl⟩
    | some file =>
      refine ⟨_, rfl, ?_⟩
      by_cases hout : file.pIndex < 0 ∨ file.pIndex ≥ g.rootEntCnt
      · rw [fatfsClose_of_out hout]
        exact ⟨im, h, hinv, rfl⟩
      · obtain ⟨i, hi⟩ := Int.eq_ofNat_of_zero_le (show 0 ≤ file.pIndex by omega)
        have hlt : i < g.rootEntCnt := by omega
        have hsame : ∀ k < g.rootEntCnt,
            ((im.setItem i (closedItem (im.dir i) file)).dir k).name = (im.dir k).name := by
          intro k _
          by_cases hk : k = i
          · rw [hk, (setItem_agree im i _).name, closedItem_name]
          · rw [setItem_dir_of_ne im hk]
        exact ⟨_, fatfsClose_shows hw hg h hi hlt, hinv.congr hsame, dirNames_congr hsame⟩
  | fatfsReaddir index =>
    obtain ⟨v', r, hr, h', -⟩ := fatfsReaddir_shows hw hg h
      { index := 0, type := .unknown, name := fun _ => 0, size := 0 } index
    simp only [fatStep, hr]
    exact ⟨_, rfl, im, h', hinv, rfl⟩
  | fatfsRead => exact absurd hp id
  | fatfsWrite => exact absurd hp id
  | fatfsSeek => exact absurd hp id

end Step

/-! ## Unlinking -/

section Unlink

variable {n : Nat} {dir dir' : Nat → DirItem} {name : List UInt8} {i : Nat}

/-- A name in front of the cleared slot is found where it was. -/
theorem Finds.before_clear {k : Nat} {other : List UInt8} (hk : Finds dir n other k) (hki : k < i)
    (ho : ∀ k, k ≠ i → dir' k = dir k) : Finds dir' n other k := by
  have hsame : ∀ m ≤ k, dir' m = dir m := fun m hm => ho m (by omega)
  refine ⟨⟨hk.lt, hsame k (Nat.le_refl k) ▸ hk.live, fun m hm => ?_⟩, ?_, fun m hm => ?_⟩
  · rw [hsame m (Nat.le_of_lt hm)]
    exact hk.before m hm
  · rw [hsame k (Nat.le_refl k), hk.name_eq]
  · rw [hsame m (Nat.le_of_lt hm)]
    exact hk.first m hm

/-- A new end marker hides every live slot behind it, and nothing else. -/
theorem found_after_clear_iff (h : DirInv n dir) (hi : Finds dir n name i)
    (hend : IsEnd (dir' i)) (ho : ∀ k, k ≠ i → dir' k = dir k) :
    (∀ other, other ≠ name → (∃ k, Finds dir n other k) → ∃ k, Finds dir' n other k) ↔
      ∀ j, i < j → j < n → ¬Live (dir j) := by
  constructor
  · intro hall j hij hj hl
    have hne : (dir j).name ≠ name := fun he =>
      Nat.ne_of_lt hij (h.distinct i j hi.lt hj hi.live hl (hi.name_eq.trans he.symm))
    obtain ⟨k, hk⟩ := hall _ hne (h.mem_iff.mp ⟨j, hj, hl, rfl⟩)
    have hki : k ≠ i := fun he => hk.live.1 (he ▸ hend)
    have hlt : k < i := by
      rcases Nat.lt_or_gt_of_ne hki with hlt | hgt
      · exact hlt
      · exact absurd hend (hk.before i hgt)
    have hlk := hk.live
    have hnk := hk.name_eq
    rw [ho k hki] at hlk hnk
    have hkj := h.distinct k j hk.lt hj hlk hl hnk
    omega
  · rintro hlast other hne ⟨k, hk⟩
    have hki : k ≠ i := fun he => hne (by rw [← hk.name_eq, he, hi.name_eq])
    rcases Nat.lt_or_gt_of_ne hki with hlt | hgt
    · exact ⟨k, hk.before_clear hlt ho⟩
    · exact absurd hk.live (hlast k hgt hk.lt)

end Unlink

/-- The slots that a listing of the whole directory reports. -/
def slotsListed (dev : Dev) (g : Fat) (v : Volume) : List Nat :=
  let dirent : Dirent := { index := 0, type := .unknown, name := fun _ => 0, size := 0 }
  (readdirAll dev g dirent (g.rootEntCnt + 1) v 0).map Dirent.index

theorem mem_slotsListed {dev : Dev} {g : Fat} {v : Volume} {im : Image} (hw : Works dev)
    (hg : g.Ok) (h : Shows g v im) (k : Nat) :
    k ∈ slotsListed dev g v ↔
      k < g.rootEntCnt ∧ ListedItem (im.dir k) ∧ ∀ m < k, ¬IsEnd (im.dir m) := by
  rw [slotsListed, mem_readdirAll hw hg _ _ h (by omega)]
  simp [ListedFrom]

/-- The directory of a file system state. -/
def dirOf (g : Fat) (s : FatFs) : Nat → DirItem := (image g s.vol.disk).dir

/-- As long as every unlink removes the last live slot, the directory is a map
from names: a name opens without `O_CREAT` exactly when the history put it
there, the live names stay different, and an unlink leaves every other listed
entry listed. It leaves every other name openable exactly when no live slot
lies behind the one it clears. -/
theorem root_directory_refines_map {dev : Dev} {g : Fat} {fuel : Nat} (hw : Works dev)
    (hg : g.Ok) (hfuel : 65536 < fuel) {s : FatFs} (hc : Coherent g s.vol)
    (hwf : DirWellFormed g.rootEntCnt (dirOf g s)) {es : List FatEvent}
    (hp : Along (fatStep dev g fuel) (DirStepOk g) s es) :
    ∃ t, run (fatStep dev g fuel) s es = some t ∧
      (∀ path mode, mode &&& oCreat = 0 → ∃ v file r,
        fatfsOpen dev g fuel t.vol path (fileNew mode) = some (v, file, r) ∧
          (r = 0 ↔ toSfn path ∈ es.foldl mapStep (dirNames g.rootEntCnt (dirOf g s)))) ∧
      (∀ i j, i < g.rootEntCnt → j < g.rootEntCnt → Live (dirOf g t i) → Live (dirOf g t j) →
        (dirOf g t i).name = (dirOf g t j).name → i = j) ∧
      (∀ path, DirStepOk g t (.fatfsUnlink path) → ∃ t',
        fatStep dev g fuel t (.fatfsUnlink path) = some t' ∧
          ∀ k ∈ slotsListed dev g t.vol, (dirOf g t k).name ≠ toSfn path →
            k ∈ slotsListed dev g t'.vol ∧ dirOf g t' k = dirOf g t k) ∧
      ∀ path i, Finds (dirOf g t) g.rootEntCnt (toSfn path) i → ∃ t',
        fatStep dev g fuel t (.fatfsUnlink path) = some t' ∧
          ((∀ name, name ≠ toSfn path → (∃ k, Finds (dirOf g t) g.rootEntCnt name k) →
              ∃ k, Finds (dirOf g t') g.rootEntCnt name k) ↔
            ∀ j, i < j → j < g.rootEntCnt → ¬Live (dirOf g t j)) := by
  obtain ⟨t, ht, im, h, hinv, hnames⟩ := run_simulates
    (dirStep_refines hw hg hfuel) ⟨_, ⟨rfl, hc⟩, hwf.inv, rfl⟩ hp
  have hdir : dirOf g t = im.dir := congrArg Image.dir h.image_eq
  refine ⟨t, ht, fun path mode hmode => ?_, hdir ▸ hinv.distinct, fun path hok => ?_,
    fun path i hi => ?_⟩
  · obtain ⟨v, file, r, -, hr, -, -, hiff⟩ :=
      open_result hw hg hfuel h hinv path (fileNew mode) hmode
    exact ⟨v, file, r, hr, hnames ▸ hiff⟩
  · rw [hdir]
    by_cases hfound : ∃ i, Finds im.dir g.rootEntCnt (toSfn path) i
    · obtain ⟨i, hi⟩ := hfound
      obtain ⟨t', im', hs, h', hend, ho⟩ := unlink_found hw hg hfuel h hi
      have hdir' : dirOf g t' = im'.dir := congrArg Image.dir h'.image_eq
      refine ⟨t', hs, fun k hk hne => ?_⟩
      rw [mem_slotsListed hw hg h] at hk
      obtain ⟨hlt, hl, hbefore⟩ := hk
      have hki : k ≠ i := fun he => hne (by rw [he, hi.name_eq])
      have hlast : ¬i < k := fun hgt =>
        hok i (by rw [h.image_eq]; exact hi) k hgt hlt (by rw [h.image_eq]; exact hl.1)
      rw [mem_slotsListed hw hg h', hdir', ho k hki]
      refine ⟨⟨hlt, hl, fun m hm => ?_⟩, rfl⟩
      rw [ho m (by omega)]
      exact hbefore m hm
    · have hnm := mt hinv.mem_iff.mp hfound
      obtain ⟨t', hs, h'⟩ := unlink_absent hw hg fuel h (hinv.absent_iff.mpr hnm)
      have hdir' : dirOf g t' = im.dir := congrArg Image.dir h'.image_eq
      refine ⟨t', hs, fun k hk _ => ?_⟩
      rw [mem_slotsListed hw hg h] at hk
      rw [mem_slotsListed hw hg h', hdir']
      exact ⟨hk, rfl⟩
  · rw [hdir] at hi ⊢
    obtain ⟨t', im', hs, h', hend, ho⟩ := unlink_found hw hg hfuel h hi
    have hdir' : dirOf g t' = im'.dir := congrArg Image.dir h'.image_eq
    refine ⟨t', hs, ?_⟩
    rw [hdir']
    exact found_after_clear_iff hinv hi hend ho

theorem blankFs_isEnd (i : Nat) : IsEnd (dirOf tinyFat blankFs i) := by
  simp [IsEnd, dirOf, image, blankFs, diritemNameEnd]

theorem blankFs_wellFormed : DirWellFormed tinyFat.rootEntCnt (dirOf tinyFat blankFs) := by
  refine ⟨fun i j hi => absurd (blankFs_isEnd i) hi.live.1, fun i j _ _ _ b _ => ?_⟩
  simp [dirOf, image, blankFs]

/-- A file made on a blank volume, closed and unlinked: it no longer opens. -/
theorem root_directory_refines_map_create_unlink :
    ∃ t, run (fatStep idealDev tinyFat 65537) blankFs
        [.fatfsOpen 0 [65] oCreat, .fatfsClose 0, .fatfsUnlink [65]] = some t ∧
      ∃ v file r, fatfsOpen idealDev tinyFat 65537 t.vol [65] (fileNew 0) = some (v, file, r) ∧
        r ≠ 0 := by
  have hslots : (run (fatStep idealDev tinyFat 65537) blankFs
      [.fatfsOpen 0 [65] oCreat, .fatfsClose 0]).all
      (fun t => decide (∀ j : Nat, j < 16 → 0 < j → dirOf tinyFat t j 0 = diritemNameEnd)) =
        true := by
    decide +kernel
  have hp : Along (fatStep idealDev tinyFat 65537) (DirStepOk tinyFat) blankFs
      [.fatfsOpen 0 [65] oCreat, .fatfsClose 0, .fatfsUnlink [65]] := by
    refine ⟨⟨rfl, by decide, fun _ _ => ⟨0, by decide, fun hl => hl.1 (blankFs_isEnd 0)⟩⟩,
      fun s₁ h₁ => ⟨trivial, fun s₂ h₂ => ⟨fun i _ j hij hj hl => ?_, fun _ _ => trivial⟩⟩⟩
    have hrun : run (fatStep idealDev tinyFat 65537) blankFs
        [.fatfsOpen 0 [65] oCreat, .fatfsClose 0] = some s₂ :=
      run_cons_eq_some.mpr ⟨s₁, h₁, run_cons_eq_some.mpr ⟨s₂, h₂, rfl⟩⟩
    rw [hrun, Option.all_some, decide_eq_true_iff] at hslots
    exact hl.1 (hslots j hj (by omega))
  obtain ⟨t, ht, hopen, -⟩ := root_directory_refines_map idealDev_works tinyFat_ok
    (by decide : 65536 < 65537) (blankFs_coherent tinyFat) blankFs_wellFormed hp
  obtain ⟨v, file, r, hr, hiff⟩ := hopen [65] 0 (by decide)
  refine ⟨t, ht, v, file, r, hr, fun h0 => ?_⟩
  have hmem := hiff.mp h0
  simp [mapStep] at hmem

/-- Files `A` and `B` made on a blank volume and closed, then one of them
unlinked. -/
def unlinkRun (path : List UInt8) : List FatEvent :=
  [.fatfsOpen 0 [65] oCreat, .fatfsClose 0, .fatfsOpen 1 [66] oCreat, .fatfsClose 1,
    .fatfsUnlink path]

/-- Unlinking `A`, the first of the two, makes `B` unopenable. -/
theorem unlink_hides_next :
    DirWellFormed tinyFat.rootEntCnt (dirOf tinyFat blankFs) ∧
      toSfn [66] ∈ (unlinkRun [65]).foldl mapStep
        (dirNames tinyFat.rootEntCnt (dirOf tinyFat blankFs)) ∧
      ((run (fatStep idealDev tinyFat 65537) blankFs (unlinkRun [65])).bind fun t =>
        (fatfsOpen idealDev tinyFat 65537 t.vol [66] (fileNew 0)).map fun r => r.2.2) =
          some (-1) := by
  refine ⟨blankFs_wellFormed, ?_, by decide +kernel⟩
  have hne : toSfn [66] ≠ toSfn [65] := by decide
  simp [unlinkRun, mapStep, oCreat, hne]

end Wjos
