/-
Wjos.Fs.Fatfs.CrossLink — runs of calls through any number of handles.

`OwnInv` is the invariant of a run: clusters, open files and live entries
have owners as in `Owner.lean`, except for the entries in `stale`, whose
chain was freed by a truncating open and not yet written back. Such an entry
has an open handle, so in a state without open handles nothing is stale and
the chains of the live entries are those of different owners.
-/
import Wjos.Fs.Fatfs.Owner

namespace Wjos

open Lib

/-- An entry that an open or an unlink can find. -/
def Named (item : DirItem) : Prop := ∃ path, item.name = toSfn path

/-- A live entry in order: its first cluster is owned by the slot, has 16 bits
and is a cluster number when the file has contents. -/
structure OwnEntry (own : Nat → Option Nat) (i : Nat) (item : DirItem) : Prop where
  hi_eq : Named item → item.fstClusHI = 0
  size : Named item → item.fileSize ≠ 0 → 2 ≤ item.fstClusL0
  first : clusterIsValid item.fstClusL0 = true → own item.fstClusL0 = some i

structure OwnInv (g : Fat) (im : Image) (files : Nat → Option File) (stale : Set Nat)
    (own : Nat → Option Nat) : Prop where
  fat : OwnFat im own
  file : ∀ h f, files h = some f → ∃ i, OwnFile g own i f
  entry : ∀ i < g.rootEntCnt, Live (im.dir i) → i ∉ stale → OwnEntry own i (im.dir i)
  stale_open : ∀ i ∈ stale, ∃ h f, files h = some f ∧ f.pIndex = i

/-- The slots whose entry refers to a chain that an open handle has truncated. -/
def staleNext (g : Fat) (stale : Set Nat) (s : FatFs) (e : FatEvent) (_ : FatFs) : Set Nat :=
  match e with
  | .fatfsOpen h path mode =>
    {i | i ∈ stale ∨ s.files h = none ∧ mode &&& oTrunc ≠ 0 ∧
      Finds (dirOf g s) g.rootEntCnt (toSfn path) i ∧
      clusterIsValid (dirOf g s i).fstClusL0 = true}
  | .fatfsClose h => {i | i ∈ stale ∧ ∀ f, s.files h = some f → f.pIndex ≠ i}
  | _ => stale

/-- No handle is open on slot `i`. -/
def NoHandle (s : FatFs) (i : Nat) : Prop := ∀ h f, s.files h = some f → f.pIndex ≠ i

/-- The calls that keep clusters apart. A truncation or an unlink that frees a
chain finds no handle open on its slot, and no open finds a stale slot. Sizes
and offsets have the ranges of their C types. -/
def ClearStep (g : Fat) (x : FatFs × Set Nat) : FatEvent → Prop
  | .fatfsOpen h path mode =>
    x.1.files h = none → ∀ i, Finds (dirOf g x.1) g.rootEntCnt (toSfn path) i →
      i ∉ x.2 ∧ (mode &&& oTrunc ≠ 0 → clusterIsValid (dirOf g x.1 i).fstClusL0 = true →
        NoHandle x.1 i)
  | .fatfsUnlink path =>
    ∀ i, Finds (dirOf g x.1) g.rootEntCnt (toSfn path) i →
      clusterIsValid (dirOf g x.1 i).fstClusL0 = true → NoHandle x.1 i
  | .fatfsWrite _ buf => buf.length < 2147483648
  | .fatfsSeek _ offset _ => offset < 4294967296
  | .fatfsClose _ => True
  | .fatfsReaddir _ => True
  | .fatfsRead _ _ => False

section Step

variable {dev : Dev} {g : Fat} {fuel : Nat} {im im' : Image} {files : Nat → Option File}
  {stale : Set Nat} {own own' : Nat → Option Nat} {i h₀ : Nat} {f : File}

/-- A file that is looked up after one handle was set. -/
theorem files_update {h : Nat} {o : Option File} {f' : File}
    (hf : Function.update files h₀ o h = some f') :
    h = h₀ ∧ o = some f' ∨ h ≠ h₀ ∧ files h = some f' := by
  by_cases hh : h = h₀
  · rw [hh, Function.update_self] at hf
    exact .inl ⟨hh, hf⟩
  · rw [Function.update_of_ne hh] at hf
    exact .inr ⟨hh, hf⟩

namespace OwnInv

/-- Handle `h₀` is given a file that slot `i` owns. -/
theorem setFile (hi : OwnInv g im files stale own) (hf : OwnFile g own i f)
    (hsame : ∀ f', files h₀ = some f' → f'.pIndex = i) :
    OwnInv g im (Function.update files h₀ (some f)) stale own := by
  refine ⟨hi.fat, fun h f' hh => ?_, hi.entry, fun k hk => ?_⟩
  · rcases files_update hh with ⟨-, he⟩ | ⟨-, hh⟩
    · exact ⟨i, Option.some.inj he ▸ hf⟩
    · exact hi.file h f' hh
  · obtain ⟨h, f', hh, hp⟩ := hi.stale_open k hk
    by_cases hh₀ : h = h₀
    · refine ⟨h₀, f, Function.update_self .., ?_⟩
      rw [hf.pIndex, ← hp, hsame f' (hh₀ ▸ hh)]
    · exact ⟨h, f', by rw [Function.update_of_ne hh₀, hh], hp⟩

/-- Slot `i` got more clusters, through handle `h₀`. -/
theorem grow (hi : OwnInv g im files stale own) {v' : Volume} (hfile : files h₀ = some f)
    (hf : OwnFile g own i f) {f' : File} (hgrew : Grew g im own i v' im' own' f') :
    OwnInv g im' (Function.update files h₀ (some f')) stale own' := by
  have hbase : OwnInv g im' files stale own' := by
    refine ⟨hgrew.fat, fun h f₁ hh => ?_, fun k hk hl hs => ?_, hi.stale_open⟩
    · obtain ⟨j, hj⟩ := hi.file h f₁ hh
      exact ⟨j, hj.mono fun c hc => hgrew.extends'.mono hc⟩
    · rw [hgrew.dir] at hl ⊢
      have he := hi.entry k hk hl hs
      exact ⟨he.hi_eq, he.size, fun hv => hgrew.extends'.mono (he.first hv)⟩
  refine hbase.setFile hgrew.file fun f₁ h₁ => ?_
  obtain rfl : f = f₁ := Option.some.inj (hfile.symm.trans h₁)
  exact hf.pIndex

/-- An entry of a slot that is not live, or one in order, is stored. -/
theorem setItem (hi : OwnInv g im files stale own) {item : DirItem}
    (he : Live item → i ∉ stale → OwnEntry own i item) :
    OwnInv g (im.setItem i item) files stale own := by
  refine ⟨hi.fat.congr fun c => .inl rfl, hi.file, fun k hk hl hs => ?_, hi.stale_open⟩
  by_cases hki : k = i
  · subst hki
    have hag := setItem_agree im k item
    have hent := he ((live_congr hag.name).mp hl) hs
    refine ⟨fun hn => ?_, fun hn hz => ?_, fun hv => ?_⟩
    · rw [Named, hag.name] at hn
      exact hag.fstClusHI.trans (hent.hi_eq hn)
    · rw [Named, hag.name] at hn
      rw [hag.fstClusL0]
      exact hent.size hn (hag.fileSize ▸ hz)
    · rw [hag.fstClusL0] at hv ⊢
      exact hent.first hv
  · rw [setItem_dir_of_ne im hki] at hl ⊢
    exact hi.entry k hk hl hs

/-- Slot `i` loses its chain while no handle is open on it: the other slots
keep theirs. -/
theorem free (hi : OwnInv g im files stale own) {a : Nat} (ha : own a = some i)
    (hfreed : Freed im im' a) (hno : ∀ h f, files h = some f → f.pIndex ≠ i) :
    OwnFat im' (dropOwner own i) ∧
      (∀ h f, files h = some f → ∃ j, OwnFile g (dropOwner own i) j f) ∧
      ∀ k < g.rootEntCnt, k ≠ i → Live (im'.dir k) → k ∉ stale →
        OwnEntry (dropOwner own i) k (im'.dir k) := by
  refine ⟨hi.fat.free ha hfreed, fun h f hh => ?_, fun k hk hki hl hs => ?_⟩
  · obtain ⟨j, hj⟩ := hi.file h f hh
    have hji : j ≠ i := fun he => hno h f hh (by rw [hj.pIndex, he])
    exact ⟨j, hj.mono fun c hc => dropOwner_of_ne hc hji⟩
  · rw [hfreed.dir] at hl ⊢
    have he := hi.entry k hk hl hs
    exact ⟨he.hi_eq, he.size, fun hv => dropOwner_of_ne (he.first hv) hki⟩

/-- A handle is closed: the entry gets what the handle knows. -/
theorem close (hi : OwnInv g im files stale own) (hfile : files h₀ = some f)
    (hf : OwnFile g own i f) :
    OwnInv g (im.setItem i (closedItem (im.dir i) f)) (Function.update files h₀ none)
      {k | k ∈ stale ∧ ∀ f', files h₀ = some f' → f'.pIndex ≠ k} own := by
  refine ⟨hi.fat.congr fun c => .inl rfl, fun h f' hh => ?_, fun k hk hl hs => ?_,
    fun k hk => ?_⟩
  · rcases files_update hh with ⟨-, he⟩ | ⟨-, hh⟩
    · exact absurd he (by simp)
    · exact hi.file h f' hh
  · by_cases hki : k = i
    · subst hki
      have hag := setItem_agree im k (closedItem (im.dir k) f)
      have hlo : ((im.setItem k (closedItem (im.dir k) f)).dir k).fstClusL0 = f.sblk := by
        rw [hag.fstClusL0, closedItem_fstClusL0, Nat.mod_eq_of_lt hf.sblk_lt]
      refine ⟨fun _ => ?_, fun _ hz => ?_, fun hv => ?_⟩
      · rw [hag.fstClusHI, closedItem_fstClusHI, Nat.div_eq_of_lt hf.sblk_lt]
      · rw [hag.fileSize, closedItem_fileSize _ _ hf.size_lt] at hz
        rw [hlo]
        rcases hf.start with hs' | ⟨-, hzero, -⟩
        · exact hs'.1
        · exact absurd hzero hz
      · rw [hlo] at hv ⊢
        exact hf.sblk hv
    · rw [setItem_dir_of_ne im hki] at hl ⊢
      refine hi.entry k hk hl fun hst => hs ⟨hst, fun f' hf' he => hki ?_⟩
      obtain rfl : f = f' := Option.some.inj (hfile.symm.trans hf')
      exact Int.ofNat.inj (he.symm.trans hf.pIndex)
  · obtain ⟨hst, hne⟩ := hk
    obtain ⟨h, f', hh, hp⟩ := hi.stale_open k hst
    have hh₀ : h ≠ h₀ := fun he => hne f' (he ▸ hh) hp
    exact ⟨h, f', by rw [Function.update_of_ne hh₀, hh], hp⟩

/-- Slot `i` loses its chain to a truncating open through handle `h₀`: its
entry becomes stale. -/
theorem truncate (hi : OwnInv g im files stale own) {a : Nat} (ha : own a = some i)
    (hfreed : Freed im im' a) (hno : ∀ h f, files h = some f → f.pIndex ≠ i)
    (h₀_none : files h₀ = none) (hf : OwnFile g (dropOwner own i) i f) :
    OwnInv g im' (Function.update files h₀ (some f)) {k | k ∈ stale ∨ k = i}
      (dropOwner own i) := by
  obtain ⟨hfat, hfiles, hentries⟩ := hi.free ha hfreed hno
  refine ⟨hfat, fun h f' hh => ?_, fun k hk hl hst => ?_, fun k hk => ?_⟩
  · rcases files_update hh with ⟨-, he⟩ | ⟨-, hh⟩
    · exact ⟨i, Option.some.inj he ▸ hf⟩
    · exact hfiles h f' hh
  · exact hentries k hk (fun he => hst (.inr he)) hl fun hks => hst (.inl hks)
  · rcases hk with hk | rfl
    · obtain ⟨h, f', hh, hp⟩ := hi.stale_open k hk
      have hne : h ≠ h₀ := fun he => by simp [he, h₀_none] at hh
      exact ⟨h, f', by rw [Function.update_of_ne hne, hh], hp⟩
    · exact ⟨h₀, f, Function.update_self .., hf.pIndex⟩

/-- A stale slot has an open handle. -/
theorem not_stale (hi : OwnInv g im files stale own)
    (hno : ∀ h f, files h = some f → f.pIndex ≠ i) : i ∉ stale := fun hs => by
  obtain ⟨h, f, hh, hp⟩ := hi.stale_open i hs
  exact hno h f hh hp

end OwnInv

/-- The file that an open sets up for an entry in order. -/
theorem OwnEntry.file (he : OwnEntry own i (im.dir i)) (hn : Named (im.dir i))
    (hlt : i < g.rootEntCnt) (hpos : 0 < g.clusterByteSize) (file : File) :
    OwnFile g own i (openedFile im file i) := by
  have hlo := le16_lt (im.dir i) 26
  have hs : (im.dir i).fstClusHI * 65536 + (im.dir i).fstClusL0 = (im.dir i).fstClusL0 := by
    rw [he.hi_eq hn, Nat.zero_mul, Nat.zero_add]
  have hsb : (openedFile im file i).sblk = (im.dir i).fstClusL0 := hs
  have hcb : (openedFile im file i).cblk = (im.dir i).fstClusL0 := hs
  refine ⟨rfl, hlt, hsb ▸ hlo, hcb ▸ hlo, le32_lt _ _, fun hv => ?_, fun hv => ?_, ?_⟩
  · rw [hsb] at hv ⊢
    exact he.first hv
  · rw [hcb] at hv ⊢
    exact he.first hv
  · rw [hsb, hcb]
    by_cases hz : (im.dir i).fileSize = 0
    · exact .inr ⟨rfl, hz, hpos⟩
    · exact .inl ⟨he.size hn hz, he.size hn hz⟩

/-- A file without clusters. -/
theorem OwnFile.empty (own : Nat → Option Nat) {f : File} (hp : f.pIndex = i)
    (hlt : i < g.rootEntCnt) (hs : f.sblk = fatClusterInvalid) (hc : f.cblk = fatClusterInvalid)
    (hz : f.size = 0) : OwnFile g own i f := by
  have hn : clusterIsValid fatClusterInvalid ≠ true := by decide
  refine ⟨hp, hlt, hs ▸ by decide, hc ▸ by decide, hz ▸ by decide, fun hv => ?_, fun hv => ?_,
    .inl ?_⟩
  · exact absurd (hs ▸ hv) hn
  · exact absurd (hc ▸ hv) hn
  · rw [hs, hc]
    decide

end Step

/-! ## Runs -/

section Run

variable {dev : Dev} {g : Fat} {fuel : Nat}

/-- The invariant of the state together with its history. -/
def Owned (g : Fat) (x : FatFs × Set Nat) : Prop :=
  ∃ im own, Shows g x.1.vol im ∧ OwnInv g im x.1.files x.2 own

/-- An open that frees no chain. -/
theorem staleNext_open_eq {s t : FatFs} {stale : Set Nat} {h mode : Nat} {path : List UInt8}
    (hno : s.files h = none → mode &&& oTrunc ≠ 0 → ∀ i,
      Finds (dirOf g s) g.rootEntCnt (toSfn path) i →
        clusterIsValid (dirOf g s i).fstClusL0 = false) :
    staleNext g stale s (.fatfsOpen h path mode) t = stale := by
  ext k
  refine ⟨fun hk => hk.resolve_right fun ⟨hn, ht, hf, hv⟩ => ?_, .inl⟩
  rw [hno hn ht k hf] at hv
  exact absurd hv (by simp)

/-- An open that frees the chain of slot `i`. -/
theorem staleNext_open_insert {s t : FatFs} {stale : Set Nat} {h mode i : Nat}
    {path : List UInt8} (hn : s.files h = none) (ht : mode &&& oTrunc ≠ 0)
    (hf : Finds (dirOf g s) g.rootEntCnt (toSfn path) i)
    (hv : clusterIsValid (dirOf g s i).fstClusL0 = true) :
    staleNext g stale s (.fatfsOpen h path mode) t = {k | k ∈ stale ∨ k = i} := by
  ext k
  constructor
  · rintro (hk | ⟨-, -, hk, -⟩)
    · exact .inl hk
    · exact .inr (hk.unique hf)
  · rintro (hk | rfl)
    · exact .inl hk
    · exact .inr ⟨hn, ht, hf, hv⟩

/-- What an open that succeeds does with the state. -/
theorem fatStep_fatfsOpen {s : FatFs} {h mode : Nat} {path : List UInt8} (hn : s.files h = none)
    {v : Volume} {f : File}
    (hr : fatfsOpen dev g fuel s.vol path (fileNew mode) = some (v, f, 0)) :
    fatStep dev g fuel s (.fatfsOpen h path mode) =
      some { vol := v, files := Function.update s.files h (some f) } := by
  simp only [fatStep, hn, hr, Option.map_some]
  rfl

theorem fatStep_open {s t : FatFs} {h mode : Nat} {path : List UInt8} (hn : s.files h = none)
    {v : Volume} {f : File}
    (hr : fatfsOpen dev g fuel s.vol path (fileNew mode) = some (v, f, 0))
    (hs : fatStep dev g fuel s (.fatfsOpen h path mode) = some t) :
    t = { vol := v, files := Function.update s.files h (some f) } :=
  Option.some.inj (hs.symm.trans (fatStep_fatfsOpen hn hr))

/-- Opening a file. -/
theorem open_owned (hw : Works dev) (hg : g.Ok) {s t : FatFs} {stale : Set Nat} {hd mode : Nat}
    {path : List UInt8} (h : Owned g (s, stale))
    (hp : ClearStep g (s, stale) (.fatfsOpen hd path mode))
    (hs : fatStep dev g fuel s (.fatfsOpen hd path mode) = some t) :
    Owned g (t, staleNext g stale s (.fatfsOpen hd path mode) t) := by
  obtain ⟨im, own, h, hinv⟩ := h
  dsimp only at h hinv
  have hdir : dirOf g s = im.dir := congrArg Image.dir h.image_eq
  cases hfile : s.files hd with
  | some f =>
    simp only [fatStep, hfile] at hs
    obtain rfl : s = t := Option.some.inj hs
    rw [staleNext_open_eq fun hn => by simp [hfile] at hn]
    exact ⟨im, own, h, hinv⟩
  | none =>
    have hp := hp hfile
    simp only [hdir] at hp
    have hfree : ∀ {i : Nat} f', s.files hd = some f' → f'.pIndex = i := fun f' hf' =>
      absurd (hfile.symm.trans hf') (by simp)
    rcases fatfsOpen_shows hw hg h fuel path (fileNew mode) with
      ⟨i, v₁, hf⟩ | ⟨q, v₁, item, hc⟩ | ⟨v₁, hx⟩
    · obtain ⟨hns, hclear⟩ := hp i hf.finds
      have hent := hinv.entry i hf.finds.lt hf.finds.live hns
      have hown :=
        hent.file ⟨path, hf.finds.name_eq⟩ hf.finds.lt hg.clusterByteSize_pos (fileNew mode)
      have hfinds : Finds (dirOf g s) g.rootEntCnt (toSfn path) i := hdir ▸ hf.finds
      have hr := hf.result
      rw [show (fileNew mode).mode = mode from rfl] at hr
      by_cases ht : mode &&& oTrunc = 0
      · rw [if_neg (fun hn => hn ht)] at hr
        rw [fatStep_open hfile hr hs, staleNext_open_eq fun _ hn => absurd ht hn]
        exact ⟨im, own, hf.shows, hinv.setFile hown hfree⟩
      · rw [if_pos ht] at hr
        cases hchain : clusterFreeChain dev g fuel v₁ (im.dir i).fstClusL0 with
        | none => simp [fatStep, hfile, hr, hchain] at hs
        | some v₃ =>
          rw [hchain] at hr
          rw [fatStep_open hfile hr hs]
          obtain ⟨im₂, h₂, hfreed⟩ := clusterFreeChain_shows hw hg fuel hf.shows hchain
          have hempty : ∀ own', OwnFile g own' i { openedFile im (fileNew mode) i with
              sblk := fatClusterInvalid, cblk := fatClusterInvalid, size := 0 } := fun own' =>
            OwnFile.empty own' rfl hf.finds.lt rfl rfl rfl
          cases hv : clusterIsValid (im.dir i).fstClusL0 with
          | true =>
            rw [staleNext_open_insert hfile ht hfinds (by rw [hdir, hv])]
            exact ⟨im₂, _, h₂, hinv.truncate (hent.first hv) hfreed (hclear ht hv) hfile (hempty _)⟩
          | false =>
            rw [clusterFreeChain_of_not_valid hv] at hchain
            obtain rfl := Option.some.inj hchain
            rw [staleNext_open_eq fun _ _ k hk => by rw [hk.unique hfinds, hdir, hv]]
            exact ⟨im, own, hf.shows, hinv.setFile (hempty own) hfree⟩
    · have hsb : item.fstClusHI * 65536 + item.fstClusL0 = fatClusterInvalid := by
        rw [hc.hi_eq, hc.lo_eq, Nat.zero_mul, Nat.zero_add]
      have hitem : OwnEntry own q item := by
        refine ⟨fun _ => hc.hi_eq, fun _ hz => absurd hc.size_eq hz, fun hv => ?_⟩
        rw [hc.lo_eq] at hv
        exact absurd hv (by decide)
      have hnone : ∀ k, ¬Finds (dirOf g s) g.rootEntCnt (toSfn path) k := fun k hk => by
        rw [hdir] at hk
        exact hk.not_absent hc.absent
      rw [fatStep_open hfile hc.result hs, staleNext_open_eq fun _ _ k hk => absurd hk (hnone k)]
      exact ⟨_, own, hc.shows, (hinv.setItem fun _ _ => hitem).setFile
        (OwnFile.empty own rfl hc.lt hsb hsb hc.size_eq) hfree⟩
    · have hnone : ∀ k, ¬Finds (dirOf g s) g.rootEntCnt (toSfn path) k := fun k hk => by
        rw [hdir] at hk
        exact hk.not_absent hx.absent
      simp only [fatStep, hfile, hx.result, Option.map_some] at hs
      obtain rfl := Option.some.inj hs
      rw [staleNext_open_eq fun _ _ k hk => absurd hk (hnone k)]
      exact ⟨im, own, hx.shows, hinv⟩

/-- Clearing a slot keeps the invariant: its entry is no longer live. -/
theorem OwnInv.clear {im : Image} {files : Nat → Option File} {stale : Set Nat}
    {own : Nat → Option Nat} (hi : OwnInv g im files stale own) (i : Nat) :
    OwnInv g (im.setItem i fun _ => 0) files stale own :=
  hi.setItem fun hl _ => absurd rfl hl.1

/-- Removing a file. -/
theorem unlink_owned (hw : Works dev) (hg : g.Ok) {s t : FatFs} {stale : Set Nat}
    {path : List UInt8} (h : Owned g (s, stale)) (hp : ClearStep g (s, stale) (.fatfsUnlink path))
    (hs : fatStep dev g fuel s (.fatfsUnlink path) = some t) :
    Owned g (t, stale) := by
  obtain ⟨im, own, h, hinv⟩ := h
  dsimp only at h hinv
  have hdir : dirOf g s = im.dir := congrArg Image.dir h.image_eq
  obtain ⟨⟨v', r⟩, hr, rfl⟩ := Option.map_eq_some_iff.mp hs
  rcases fatfsUnlink_shows hw hg h fuel path with ⟨i, hf, v₁, h₁, hu⟩ | ⟨-, v₁, h₁, hu⟩
  · rw [hu] at hr
    obtain ⟨v₂, hchain, hwr⟩ := Option.map_eq_some_iff.mp hr
    have hclear := hp i (hdir ▸ hf)
    simp only [hdir] at hclear
    obtain ⟨im₂, h₂, hfreed⟩ := clusterFreeChain_shows hw hg fuel h₁ hchain
    obtain ⟨v₃, hwr', h₃⟩ := writeDirEntry_shows hw hg h₂ hf.lt fun _ => 0
    obtain ⟨rfl, rfl⟩ := Prod.mk.inj (hwr.symm.trans hwr')
    cases hv : clusterIsValid (im.dir i).fstClusL0 with
    | true =>
      have hno := hclear hv
      have hent := hinv.entry i hf.lt hf.live (hinv.not_stale hno)
      obtain ⟨hfat, hfiles, hentries⟩ := hinv.free (hent.first hv) hfreed hno
      refine ⟨_, dropOwner own i, h₃, hfat.congr fun c => .inl rfl, hfiles,
        fun k hk hl hst => ?_, hinv.stale_open⟩
      have hki : k ≠ i := fun he => by
        rw [he] at hl
        exact hl.1 (setItem_agree im₂ i _).zero
      rw [setItem_dir_of_ne im₂ hki] at hl ⊢
      exact hentries k hk hki hl hst
    | false =>
      rw [clusterFreeChain_of_not_valid hv] at hchain
      obtain rfl := Option.some.inj hchain
      obtain ⟨v₄, hwr₄, h₄⟩ := writeDirEntry_shows hw hg h₁ hf.lt fun _ => 0
      obtain ⟨rfl, -⟩ := Prod.mk.inj (hwr.symm.trans hwr₄)
      exact ⟨_, own, h₄, hinv.clear i⟩
  · rw [hu] at hr
    obtain ⟨rfl, -⟩ := Prod.mk.inj (Option.some.inj hr)
    exact ⟨im, own, h₁, hinv⟩

/-- Every call keeps the invariant. -/
theorem step_owned (hw : Works dev) (hg : g.Ok) (x : FatFs × Set Nat) (e : FatEvent)
    (y : FatFs × Set Nat) (h : Owned g x) (hp : ClearStep g x e)
    (hobs : observed (fatStep dev g fuel) (staleNext g) x e = some y) : Owned g y := by
  obtain ⟨s, stale⟩ := x
  obtain ⟨t, stale'⟩ := y
  obtain ⟨hs, hstale⟩ := observed_eq_some.mp hobs
  dsimp only at hs hstale
  subst hstale
  cases e with
  | fatfsOpen hd path mode => exact open_owned hw hg h hp hs
  | fatfsUnlink path => exact unlink_owned hw hg h hp hs
  | fatfsRead hd size => exact absurd hp id
  | fatfsReaddir index =>
    obtain ⟨im, own, h, hinv⟩ := h
    obtain rfl := Option.some.inj hs
    obtain ⟨v', r, hr, h', -⟩ := fatfsReaddir_shows hw hg h
      { index := 0, type := .unknown, name := fun _ => 0, size := 0 } index
    exact ⟨im, own, by dsimp only; rw [hr]; exact h', hinv⟩
  | fatfsWrite hd buf =>
    obtain ⟨im, own, h, hinv⟩ := h
    simp only [fatStep] at hs
    cases hfile : s.files hd with
    | none =>
      simp only [hfile] at hs
      obtain rfl := Option.some.inj hs
      exact ⟨im, own, h, hinv⟩
    | some f =>
      simp only [hfile] at hs
      obtain ⟨⟨v', f', r⟩, hr, rfl⟩ := Option.map_eq_some_iff.mp hs
      obtain ⟨i, hf⟩ := hinv.file hd f hfile
      obtain ⟨im', own', hgrew⟩ := fatfsWrite_own hw hg h hinv.fat hf hp hr
      exact ⟨im', own', hgrew.shows, hinv.grow hfile hf hgrew⟩
  | fatfsSeek hd offset dir =>
    obtain ⟨im, own, h, hinv⟩ := h
    simp only [fatStep] at hs
    cases hfile : s.files hd with
    | none =>
      simp only [hfile] at hs
      obtain rfl := Option.some.inj hs
      exact ⟨im, own, h, hinv⟩
    | some f =>
      simp only [hfile] at hs
      obtain ⟨⟨v', f', r⟩, hr, rfl⟩ := Option.map_eq_some_iff.mp hs
      obtain ⟨i, hf⟩ := hinv.file hd f hfile
      obtain ⟨h', hf'⟩ := fatfsSeek_own hw hg h hinv.fat hf hp hr
      refine ⟨im, own, h', hinv.setFile hf' fun f₁ h₁ => ?_⟩
      obtain rfl : f = f₁ := Option.some.inj (hfile.symm.trans h₁)
      exact hf.pIndex
  | fatfsClose hd =>
    obtain ⟨im, own, h, hinv⟩ := h
    simp only [fatStep] at hs
    cases hfile : s.files hd with
    | none =>
      simp only [hfile] at hs
      obtain rfl := Option.some.inj hs
      refine ⟨im, own, h, ?_⟩
      have hst : staleNext g stale s (.fatfsClose hd) s = stale := by
        ext k
        exact ⟨fun hk => hk.1, fun hk => ⟨hk, fun f hf => by simp [hfile] at hf⟩⟩
      rw [hst]
      exact hinv
    | some f =>
      simp only [hfile] at hs
      obtain rfl := Option.some.inj hs
      obtain ⟨i, hf⟩ := hinv.file hd f hfile
      exact ⟨_, own, fatfsClose_shows hw hg h hf.pIndex hf.lt, hinv.close hfile hf⟩

/-! ## Chains of the live entries -/

/-- Cluster `c` is on the chain of slot `i`. -/
def OnEntry (im : Image) (i c : Nat) : Prop := OnFat im.fat (im.dir i).fstClusL0 c

/-- No two live entries share a cluster and none has a free one. -/
structure NoCrossLinks (g : Fat) (im : Image) : Prop where
  disjoint : ∀ i j c, i < g.rootEntCnt → j < g.rootEntCnt → i ≠ j → Live (im.dir i) →
    Live (im.dir j) → OnEntry im i c → ¬OnEntry im j c
  not_free : ∀ i c, i < g.rootEntCnt → Live (im.dir i) → OnEntry im i c →
    im.fat c ≠ fatClusterFree

/-- What else a volume promises of its live entries: for those that can be
opened a first cluster of 16 bits, and one at all when the file has contents;
and no table entry on a chain with the reserved value 1. -/
structure ChainsWellFormed (g : Fat) (im : Image) : Prop where
  hi_eq : ∀ i < g.rootEntCnt, Live (im.dir i) → Named (im.dir i) → (im.dir i).fstClusHI = 0
  size : ∀ i < g.rootEntCnt, Live (im.dir i) → Named (im.dir i) → (im.dir i).fileSize ≠ 0 →
    2 ≤ (im.dir i).fstClusL0
  ne_one : ∀ i c, i < g.rootEntCnt → Live (im.dir i) → OnEntry im i c → im.fat c ≠ 1

open Classical in
/-- Chains without cross links have owners. -/
theorem NoCrossLinks.own {im : Image} (h : NoCrossLinks g im) (hw : ChainsWellFormed g im)
    {files : Nat → Option File} (hno : ∀ hd, files hd = none) :
    ∃ own, OwnInv g im files ∅ own := by
  let P := fun i c => i < g.rootEntCnt ∧ Live (im.dir i) ∧ OnEntry im i c
  let own := fun c => if hc : ∃ i, P i c then some hc.choose else none
  have hown : ∀ c i, own c = some i → P i c := fun c i hc => by
    dsimp only [own] at hc
    split at hc
    next he => exact Option.some.inj hc ▸ he.choose_spec
    next => exact absurd hc (by simp)
  have hmem : ∀ i c, P i c → own c = some i := fun i c hc => by
    have he : ∃ i, P i c := ⟨i, hc⟩
    have hspec := he.choose_spec
    have hsame : he.choose = i := by
      by_contra hne
      exact h.disjoint _ i c hspec.1 hc.1 hne hspec.2.1 hc.2.1 hspec.2.2 hc.2.2
    dsimp only [own]
    rw [dif_pos he, hsame]
  refine ⟨own, ⟨fun c i hc => ?_, fun c i hc => ?_, fun c i hc hv => ?_⟩,
    fun hd f hf => absurd ((hno hd).symm.trans hf) (by simp), fun i hi hl _ => ?_,
    fun i hi => absurd hi id⟩
  · obtain ⟨hlt, hl, hon⟩ := hown c i hc
    exact h.not_free i c hlt hl hon
  · obtain ⟨hlt, hl, hon⟩ := hown c i hc
    exact hw.ne_one i c hlt hl hon
  · obtain ⟨hlt, hl, hon⟩ := hown c i hc
    exact hmem i _ ⟨hlt, hl, hon.tail hv⟩
  · exact ⟨hw.hi_eq i hi hl, hw.size i hi hl,
      fun hv => hmem i _ ⟨hi, hl, OnChain.refl hv⟩⟩

/-- Without open handles the owners keep the chains of the entries apart. -/
theorem OwnInv.noCrossLinks {im : Image} {files : Nat → Option File} {stale : Set Nat}
    {own : Nat → Option Nat} (hi : OwnInv g im files stale own)
    (hno : ∀ hd, files hd = none) : NoCrossLinks g im := by
  have howner : ∀ i c, i < g.rootEntCnt → Live (im.dir i) → OnEntry im i c →
      own c = some i := fun i c hlt hl hon => by
    have hst : i ∉ stale := hi.not_stale fun hd f hf => absurd ((hno hd).symm.trans hf) (by simp)
    exact hi.fat.onFat ((hi.entry i hlt hl hst).first hon.valid_left) hon
  refine ⟨fun i j c hlti hltj hne hli hlj hci hcj => hne ?_, fun i c hlt hl hon => ?_⟩
  · exact Option.some.inj ((howner i c hlti hli hci).symm.trans (howner j c hltj hlj hcj))
  · exact hi.fat.ne_zero c i (howner i c hlt hl hon)

/-- Starting from a volume without cross links, every run that frees no chain
under an open handle, and opens no slot whose chain a handle still open has
freed, leads to a volume without cross links whenever all handles are closed. -/
theorem no_cross_links (hw : Works dev) (hg : g.Ok) {s₀ t : FatFs} {stale : Set Nat}
    (hco : Coherent g s₀.vol) (h₀ : ∀ hd, s₀.files hd = none)
    (hno : NoCrossLinks g (image g s₀.vol.disk))
    (hwf : ChainsWellFormed g (image g s₀.vol.disk)) {es : List FatEvent}
    (hp : Along (observed (fatStep dev g fuel) (staleNext g)) (ClearStep g) (s₀, ∅) es)
    (hr : run (observed (fatStep dev g fuel) (staleNext g)) (s₀, ∅) es = some (t, stale))
    (ht : ∀ hd, t.files hd = none) :
    NoCrossLinks g (image g t.vol.disk) := by
  obtain ⟨own, hinv⟩ := hno.own hwf h₀
  obtain ⟨im, own', h, hinv'⟩ :=
    run_invariant_along (step_owned hw hg) ⟨_, own, ⟨rfl, hco⟩, hinv⟩ hp hr
  rw [h.image_eq]
  exact hinv'.noCrossLinks ht

end Run

/-! ## Runs on a blank volume -/

/-- The handle a call is made on. -/
def FatEvent.handle : FatEvent → Option Nat
  | .fatfsOpen h _ _ => some h
  | .fatfsRead h _ => some h
  | .fatfsWrite h _ => some h
  | .fatfsSeek h _ _ => some h
  | .fatfsClose h => some h
  | .fatfsReaddir _ => none
  | .fatfsUnlink _ => none

/-- A call leaves the other handles alone. -/
theorem fatStep_files {dev : Dev} {g : Fat} {fuel : Nat} {s t : FatFs} {e : FatEvent} {k : Nat}
    (hs : fatStep dev g fuel s e = some t) (hk : e.handle ≠ some k) : t.files k = s.files k := by
  have hupd : ∀ {h : Nat} (o : Option File), some h ≠ some k →
      Function.update s.files h o k = s.files k := fun o hne =>
    Function.update_of_ne (fun he => hne (congrArg some he.symm)) _ _
  cases e with
  | fatfsOpen h path mode =>
    simp only [fatStep] at hs
    split at hs
    · exact Option.some.inj hs ▸ rfl
    · obtain ⟨⟨v, f, r⟩, -, rfl⟩ := Option.map_eq_some_iff.mp hs
      dsimp only
      split
      · rfl
      · exact hupd _ hk
  | fatfsRead h size =>
    simp only [fatStep] at hs
    split at hs
    · exact Option.some.inj hs ▸ rfl
    · obtain ⟨x, -, rfl⟩ := Option.map_eq_some_iff.mp hs
      exact hupd _ hk
  | fatfsWrite h buf =>
    simp only [fatStep] at hs
    split at hs
    · exact Option.some.inj hs ▸ rfl
    · obtain ⟨x, -, rfl⟩ := Option.map_eq_some_iff.mp hs
      exact hupd _ hk
  | fatfsSeek h offset dir =>
    simp only [fatStep] at hs
    split at hs
    · exact Option.some.inj hs ▸ rfl
    · obtain ⟨x, -, rfl⟩ := Option.map_eq_some_iff.mp hs
      exact hupd _ hk
  | fatfsClose h =>
    simp only [fatStep] at hs
    split at hs
    · exact Option.some.inj hs ▸ rfl
    · obtain rfl := Option.some.inj hs
      exact hupd _ hk
  | fatfsReaddir index => exact Option.some.inj hs ▸ rfl
  | fatfsUnlink path =>
    obtain ⟨x, -, rfl⟩ := Option.map_eq_some_iff.mp hs
    rfl

/-- A run leaves handles it does not use alone. -/
theorem run_files {dev : Dev} {g : Fat} {fuel : Nat} {s t : FatFs} {es : List FatEvent} {k : Nat}
    (hr : run (fatStep dev g fuel) s es = some t) (hk : ∀ e ∈ es, e.handle ≠ some k) :
    t.files k = s.files k := by
  induction es generalizing s with
  | nil => exact Option.some.inj hr ▸ rfl
  | cons e es ih =>
    obtain ⟨s', hs, hr⟩ := run_cons_eq_some.mp hr
    rw [ih hr fun e' he => hk e' (.tail _ he)]
    exact fatStep_files hs (hk e (.head _))

theorem blankFs_not_live (i : Nat) : ¬Live ((image tinyFat blankFs.vol.disk).dir i) := fun hl =>
  hl.1 (blankFs_isEnd i)

theorem blankFs_noCrossLinks : NoCrossLinks tinyFat (image tinyFat blankFs.vol.disk) :=
  ⟨fun i _ _ _ _ _ hl => absurd hl (blankFs_not_live i),
    fun i _ _ hl => absurd hl (blankFs_not_live i)⟩

theorem blankFs_chains : ChainsWellFormed tinyFat (image tinyFat blankFs.vol.disk) :=
  ⟨fun i _ hl => absurd hl (blankFs_not_live i), fun i _ hl => absurd hl (blankFs_not_live i),
    fun i _ _ hl => absurd hl (blankFs_not_live i)⟩

/-- A file made on a blank volume, written and closed. -/
def writeRun : List FatEvent :=
  [.fatfsOpen 0 [97] oCreat, .fatfsWrite 0 [1, 2, 3], .fatfsClose 0]

/-- The volume after `writeRun` has no cross links. -/
theorem no_cross_links_write :
    ∃ t, run (fatStep idealDev tinyFat 65537) blankFs writeRun = some t ∧
      NoCrossLinks tinyFat (image tinyFat t.vol.disk) := by
  have hrun : (run (observed (fatStep idealDev tinyFat 65537) (staleNext tinyFat)) (blankFs, ∅)
      writeRun).isSome = true := by
    decide +kernel
  obtain ⟨⟨t, stale⟩, hr⟩ := Option.isSome_iff_exists.mp hrun
  have hclosed : (run (fatStep idealDev tinyFat 65537) blankFs writeRun).all
      (fun t => decide (t.files 0 = none)) = true := by
    decide +kernel
  have hplain := run_of_observed hr
  rw [hplain, Option.all_some, decide_eq_true_iff] at hclosed
  have hp : Along (observed (fatStep idealDev tinyFat 65537) (staleNext tinyFat))
      (ClearStep tinyFat) (blankFs, ∅) writeRun :=
    ⟨fun _ i hf => absurd hf.live (blankFs_not_live i),
      fun _ _ => ⟨by simp [ClearStep], fun _ _ => ⟨trivial, fun _ _ => trivial⟩⟩⟩
  refine ⟨t, hplain, no_cross_links idealDev_works tinyFat_ok (blankFs_coherent tinyFat)
    (fun _ => rfl) blankFs_noCrossLinks blankFs_chains hp hr fun hd => ?_⟩
  by_cases hd0 : hd = 0
  · exact hd0 ▸ hclosed
  · refine run_files hplain fun e he hh => hd0 ?_
    simp only [writeRun, List.mem_cons, List.not_mem_nil, or_false] at he
    rcases he with rfl | rfl | rfl <;> exact (Option.some.inj hh).symm

/-- File `a` is written and closed, opened again, and truncated through a
second handle. The file `b` gets the cluster that was freed; the close of the
first handle then puts it back into the entry of `a`. -/
def truncateRun : List FatEvent :=
  [.fatfsOpen 0 [97] oCreat, .fatfsWrite 0 [1, 2, 3], .fatfsClose 0, .fatfsOpen 0 [97] 0,
    .fatfsOpen 1 [97] oTrunc, .fatfsClose 1, .fatfsOpen 2 [98] oCreat,
    .fatfsWrite 2 [4, 5, 6], .fatfsClose 2, .fatfsClose 0]

/-- After `truncateRun` the two files share their cluster. -/
theorem truncate_cross_links :
    Coherent tinyFat blankFs.vol ∧ NoCrossLinks tinyFat (image tinyFat blankFs.vol.disk) ∧
      ChainsWellFormed tinyFat (image tinyFat blankFs.vol.disk) ∧
      ∃ t, run (fatStep idealDev tinyFat 65537) blankFs truncateRun = some t ∧
        (∀ hd, t.files hd = none) ∧ ¬NoCrossLinks tinyFat (image tinyFat t.vol.disk) := by
  have hrun : (run (fatStep idealDev tinyFat 65537) blankFs truncateRun).any (fun t =>
      decide ((∀ hd : Nat, hd < 3 → t.files hd = none) ∧
        (∀ i : Nat, i < 2 → dirOf tinyFat t i 0 ≠ diritemNameEnd ∧
          dirOf tinyFat t i 0 ≠ diritemNameFree ∧ (dirOf tinyFat t i).fstClusL0 = 2))) = true := by
    decide +kernel
  obtain ⟨t, hr, ht⟩ := (Option.any_eq_true ..).mp hrun
  obtain ⟨hfiles, hdir⟩ := of_decide_eq_true ht
  refine ⟨blankFs_coherent tinyFat, blankFs_noCrossLinks, blankFs_chains, t, hr,
    fun hd => ?_, fun hno => ?_⟩
  · rcases Nat.lt_or_ge hd 3 with hlt | hge
    · exact hfiles hd hlt
    · refine run_files hr fun e he hh => ?_
      have hsmall : ∀ e ∈ truncateRun, ∀ k, e.handle = some k → k < 3 := by decide
      exact absurd (hsmall e he hd hh) (Nat.not_lt_of_ge hge)
  · have hon : ∀ i < 2, OnEntry (image tinyFat t.vol.disk) i 2 := fun i hi => by
      have hfst : ((image tinyFat t.vol.disk).dir i).fstClusL0 = 2 := (hdir i hi).2.2
      rw [OnEntry, hfst]
      exact OnChain.refl (by decide)
    have hlive : ∀ i < 2, Live ((image tinyFat t.vol.disk).dir i) := fun i hi =>
      ⟨(hdir i hi).1, (hdir i hi).2.1⟩
    exact hno.disjoint 0 1 2 (by decide) (by decide) (by decide) (hlive 0 (by decide))
      (hlive 1 (by decide)) (hon 0 (by decide)) (hon 1 (by decide))

end Wjos
