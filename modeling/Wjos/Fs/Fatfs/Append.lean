/-
Wjos.Fs.Fatfs.Append — files that are made, appended to and read back.

A run has two parts. The first opens files, each created or truncated, with
one handle a file (`OpenOk`). The second writes and closes, through the
handles in any order (`AppendOk`). `AppendInv` keeps a record of every file,
its name, slot, clusters and bytes: an open file stands at the end of its
bytes, a closed one has them through its directory entry, and no two files
share a cluster.

`append_round_trip` reads back: a file opened again, read in chunks of any
lengths, yields the bytes written to it, and 0 after the last one.
-/
import Wjos.Fs.Fatfs.Contents
import Wjos.Fs.Fatfs.CrossLink

namespace Wjos

open Lib

/-! ## Names -/

section Names

variable {n : Nat} {dir dir' : Nat → DirItem} {name other : List UInt8} {i q : Nat}

/-- Only the names count for a scan. -/
theorem Finds.congr (h : Finds dir n name i) (he : ∀ k, (dir' k).name = (dir k).name) :
    Finds dir' n name i := by
  refine ⟨⟨h.lt, (live_congr (he i)).mpr h.live, fun k hk hend => ?_⟩, (he i).trans h.name_eq,
    fun k hk hl => ?_⟩
  · exact h.before k hk ((isEnd_congr (he k)).mp hend)
  · rw [he k]
    exact h.first k hk ((live_congr (he k)).mp hl)

/-- Another name put into a slot that was not live. -/
theorem Finds.create (h : Finds dir n name i) (hq : ¬Live (dir q)) (hl : Live (dir' q))
    (hn : (dir' q).name ≠ name) (ho : ∀ k, k ≠ q → dir' k = dir k) : Finds dir' n name i := by
  have hiq : i ≠ q := fun he => hq (he ▸ h.live)
  refine ⟨⟨h.lt, ?_, fun k hk => ?_⟩, ?_, fun k hk => ?_⟩
  · rw [ho i hiq]
    exact h.live
  · by_cases hkq : k = q
    · exact hkq ▸ hl.1
    · rw [ho k hkq]
      exact h.before k hk
  · rw [ho i hiq, h.name_eq]
  · by_cases hkq : k = q
    · exact fun _ => hkq ▸ hn
    · rw [ho k hkq]
      exact h.first k hk

/-- A new name is found in the slot it was put into. -/
theorem Slot.finds (hq : Slot dir n q) (hqn : q < n) (ha : Absent dir n name)
    (hl : Live (dir' q)) (hn : (dir' q).name = name) (ho : ∀ k, k ≠ q → dir' k = dir k) :
    Finds dir' n name q := by
  have hbefore : ∀ k < q, ¬IsEnd (dir k) := by
    rcases hq with ⟨hq, -⟩ | ⟨q', hq, -, ⟨-, hno⟩ | ⟨-, hno⟩⟩
    · exact absurd hq (by omega)
    · obtain rfl : q = q' := Int.ofNat.inj hq
      exact hno
    · exact fun k hk => hno k (by omega)
  refine ⟨⟨hqn, hl, fun k hk => ?_⟩, hn, fun k hk hlk => ?_⟩
  · rw [ho k (Nat.ne_of_lt hk)]
    exact hbefore k hk
  · rw [ho k (Nat.ne_of_lt hk)] at hlk ⊢
    exact ha k ⟨by omega, hlk, fun j hj => hbefore j (by omega)⟩

end Names

/-! ## The calls -/

/-- The opens: each has a descriptor of its own, and truncates a file that no
handle is open on or creates one, for which the directory has a slot. -/
def OpenOk (g : Fat) (s : FatFs) : FatEvent → Prop
  | .fatfsOpen h path mode =>
    s.files h = none ∧ (toSfn path).head? ≠ some diritemNameFree ∧
      ((mode &&& oTrunc ≠ 0 ∧ ∃ i, Finds (dirOf g s) g.rootEntCnt (toSfn path) i ∧
          NoHandle s i) ∨
        (mode &&& oCreat ≠ 0 ∧ Absent (dirOf g s) g.rootEntCnt (toSfn path) ∧
          ∃ k < g.rootEntCnt, ¬Live (dirOf g s k)))
  | _ => False

/-- The writes and closes: a write is of some bytes, through an open handle,
and the clusters it needs are free. -/
def AppendOk (g : Fat) (s : FatFs) : FatEvent → Prop
  | .fatfsWrite h buf => buf ≠ [] ∧ ∃ f, s.files h = some f ∧
      clusterCnt g (f.size + buf.length) - clusterCnt g f.size ≤
        freeCount g (image g s.vol.disk)
  | .fatfsClose h => ∃ f, s.files h = some f
  | _ => False

/-- The bytes that a run writes through handle `h`, in order. -/
def bytesWritten (h : Nat) (ops : List FatEvent) : List UInt8 :=
  ops.flatMap fun
    | .fatfsWrite h' buf => if h' = h then buf else []
    | _ => []

/-- Reads of the lengths `ns`, one after the other: the bytes they deliver. -/
def readChunks (dev : Dev) (g : Fat) (fuel : Nat) :
    List Nat → Volume → File → Option (Volume × File × List UInt8)
  | [], v, file => some (v, file, [])
  | n :: ns, v, file =>
    (fatfsRead dev g fuel v (fun _ => 0) n file).bind fun (v, file, buf, r) =>
      (readChunks dev g fuel ns v file).map fun (v, file, bytes) =>
        (v, file, (List.range r).map buf ++ bytes)

/-! ## The invariant -/

/-- What the run so far has made of a file. -/
structure Tracked where
  name : List UInt8
  bytes : List UInt8
  slot : Nat
  chain : List Nat

/-- A file under way, or closed. -/
structure FileInv (g : Fat) (im : Image) (file : Option File) (w : Tracked) : Prop where
  finds : Finds im.dir g.rootEntCnt w.name w.slot
  open_ : ∀ f, file = some f → AtEnd g im f w.chain w.bytes ∧ f.pIndex = w.slot
  closed : file = none → FileData g im (im.dir w.slot).fstClusL0 w.chain w.bytes ∧
    (im.dir w.slot).fstClusHI = 0 ∧ (im.dir w.slot).fileSize = w.bytes.length

/-- Any two files of the log are so related. -/
def LogPairwise (log : Nat → Option Tracked) (R : Tracked → Tracked → Prop) : Prop :=
  ∀ h h' w w', h ≠ h' → log h = some w → log h' = some w' → R w w'

structure AppendInv (g : Fat) (im : Image) (files : Nat → Option File)
    (log : Nat → Option Tracked) : Prop where
  logged : ∀ h f, files h = some f → ∃ w, log h = some w
  file : ∀ h w, log h = some w → FileInv g im (files h) w
  distinct : LogPairwise log fun w w' => w.name ≠ w'.name
  disjoint : LogPairwise log fun w w' => ∀ c ∈ w.chain, c ∉ w'.chain

section Step

variable {dev : Dev} {g : Fat} {fuel : Nat} {im im' : Image} {files : Nat → Option File}
  {log : Nat → Option Tracked} {h : Nat} {f : File} {w w' : Tracked}

/-- The clusters of a file. -/
theorem FileInv.data (hf : FileInv g im (files h) w) :
    ∃ sblk, FileData g im sblk w.chain w.bytes := by
  cases hfile : files h with
  | none => exact ⟨_, (hf.closed hfile).1⟩
  | some f => exact ⟨_, (hf.open_ f hfile).1.data⟩

/-- A file whose name, entry and clusters stay. -/
theorem FileInv.frame {file : Option File} (hf : FileInv g im file w)
    (hfinds : Finds im'.dir g.rootEntCnt w.name w.slot)
    (hdir : im'.dir w.slot = im.dir w.slot) (hfat : ∀ c ∈ w.chain, im'.fat c = im.fat c)
    (hdata : ∀ c ∈ w.chain, im'.data c = im.data c) : FileInv g im' file w := by
  refine ⟨hfinds, fun f he => ?_, fun he => ?_⟩
  · obtain ⟨ha, hp⟩ := hf.open_ f he
    exact ⟨⟨ha.data.frame hfat hdata, ha.size, ha.pos, ha.cblk⟩, hp⟩
  · rw [hdir]
    obtain ⟨hd, hrest⟩ := hf.closed he
    exact ⟨hd.frame hfat hdata, hrest⟩

/-- Different files lie in different slots. -/
theorem AppendInv.slot_ne (hi : AppendInv g im files log) {h' : Nat} (hne : h ≠ h')
    (hw : log h = some w) (hw' : log h' = some w') : w.slot ≠ w'.slot := fun he => by
  refine hi.distinct h h' w w' hne hw hw' ?_
  rw [← (hi.file h w hw).finds.name_eq, he, (hi.file h' w' hw').finds.name_eq]

/-- A look-up in a log that was changed at one handle. -/
theorem log_update {k : Nat} (hk : Function.update log h (some w) k = some w') :
    k = h ∧ w' = w ∨ k ≠ h ∧ log k = some w' := by
  by_cases hkh : k = h
  · rw [hkh, Function.update_self] at hk
    exact .inl ⟨hkh, (Option.some.inj hk).symm⟩
  · rw [Function.update_of_ne hkh] at hk
    exact .inr ⟨hkh, hk⟩

theorem LogPairwise.update {R : Tracked → Tracked → Prop} (hsymm : ∀ a b, R a b → R b a)
    (hold : LogPairwise log R) (hnew : ∀ k w', k ≠ h → log k = some w' → R w' w) :
    LogPairwise (Function.update log h (some w)) R := by
  intro k k' w₁ w₂ hne h₁ h₂
  rcases log_update h₁ with ⟨hk, hw₁⟩ | ⟨hk, h₁⟩
  · rcases log_update h₂ with ⟨hk', -⟩ | ⟨hk', h₂⟩
    · exact absurd (hk.trans hk'.symm) hne
    · exact hw₁ ▸ hsymm _ _ (hnew k' w₂ hk' h₂)
  · rcases log_update h₂ with ⟨-, hw₂⟩ | ⟨-, h₂⟩
    · exact hw₂ ▸ hnew k w₁ hk h₁
    · exact hold k k' w₁ w₂ hne h₁ h₂

/-- A handle with a file has a record. -/
theorem logged_update {f' : File} (hl : ∀ k f, files k = some f → ∃ w, log k = some w) :
    ∀ k f, Function.update files h (some f') k = some f →
      ∃ w', Function.update log h (some w) k = some w' := by
  intro k f hk
  by_cases hkh : k = h
  · rw [hkh, Function.update_self]
    exact ⟨w, rfl⟩
  · rw [Function.update_of_ne hkh] at hk ⊢
    exact hl k f hk

/-- A write through handle `h`. -/
theorem AppendInv.write (hi : AppendInv g im files log) (hfile : files h = some f)
    (hw : log h = some w) {f' : File} {m : List Nat} {new : List UInt8}
    (hk : Kept im im' w.chain m) (hat : AtEnd g im' f' (w.chain ++ m) (w.bytes ++ new))
    (hp : f'.pIndex = f.pIndex) :
    AppendInv g im' (Function.update files h (some f')) (Function.update log h
      (some { w with bytes := w.bytes ++ new, chain := w.chain ++ m })) := by
  -- the clusters of another file are in use, so they are not among the new ones
  have hout : ∀ h' w', h ≠ h' → log h' = some w' → ∀ c ∈ w'.chain, c ∉ w.chain ++ m := by
    intro h' w' hne hw' c hc hmem
    rcases List.mem_append.mp hmem with hmem | hmem
    · exact hi.disjoint h h' w w' hne hw hw' c hmem hc
    · obtain ⟨sblk, hd⟩ := (hi.file h' w' hw').data
      exact fat_ne_zero hd.path hd.inTable c hc (hk.free c hmem)
  refine ⟨logged_update hi.logged, fun k w₁ hw₁ => ?_,
    hi.distinct.update (fun _ _ => Ne.symm) fun k w' hk hw' => hi.distinct k h w' w hk hw' hw,
    hi.disjoint.update (fun _ _ hd c hc hc' => hd c hc' hc)
      fun k w' hk hw' => hout k w' (Ne.symm hk) hw'⟩
  rcases log_update hw₁ with ⟨rfl, rfl⟩ | ⟨hkh, hw₁⟩
  · rw [Function.update_self]
    obtain ⟨-, hslot⟩ := (hi.file k w hw).open_ f hfile
    refine ⟨hk.dir ▸ (hi.file k w hw).finds, fun f₂ he => ?_, fun he => absurd he (by simp)⟩
    obtain rfl := Option.some.inj he
    exact ⟨hat, hp.trans hslot⟩
  · rw [Function.update_of_ne hkh]
    have hold := hi.file k w₁ hw₁
    have hnot := hout k w₁ (Ne.symm hkh) hw₁
    exact hold.frame (hk.dir ▸ hold.finds) (by rw [hk.dir]) (fun c hc => hk.fat c (hnot c hc))
      fun c hc => hk.data c (hnot c hc)

/-- A close of handle `h`. -/
theorem AppendInv.close (hi : AppendInv g im files log) (hfile : files h = some f)
    (hw : log h = some w) (hlt : f.size < 4294967296) :
    AppendInv g (im.setItem w.slot (closedItem (im.dir w.slot) f)) (Function.update files h none)
      log := by
  have hag := setItem_agree im w.slot (closedItem (im.dir w.slot) f)
  have hnames : ∀ k, ((im.setItem w.slot (closedItem (im.dir w.slot) f)).dir k).name =
      (im.dir k).name := fun k => by
    by_cases hk : k = w.slot
    · rw [hk, hag.name, closedItem_name]
    · rw [setItem_dir_of_ne im hk]
  refine ⟨fun k f₁ hf₁ => ?_, fun k w₁ hw₁ => ?_, hi.distinct, hi.disjoint⟩
  · by_cases hkh : k = h
    · exact ⟨w, hkh ▸ hw⟩
    · rw [Function.update_of_ne hkh] at hf₁
      exact hi.logged k f₁ hf₁
  · have hold := hi.file k w₁ hw₁
    by_cases hkh : k = h
    · subst hkh
      obtain rfl : w₁ = w := Option.some.inj (hw₁.symm.trans hw)
      rw [Function.update_self]
      refine ⟨hold.finds.congr hnames, fun _ he => absurd he (by simp), fun _ => ?_⟩
      obtain ⟨hat, -⟩ := hold.open_ f hfile
      have hs : f.sblk < 65536 := by
        rcases List.eq_nil_or_concat' w₁.chain with hnil | ⟨l', b, hl⟩
        · have hp := hat.data.path
          rw [hnil] at hp
          rw [show f.sblk = fatClusterInvalid from hp]
          decide
        · have hm := hat.data.path.start_mem (by simp [hl])
          exact Nat.lt_trans (hat.data.inTable _ hm).lt (by decide)
      rw [hag.fstClusL0, hag.fstClusHI, hag.fileSize, closedItem_fstClusL0, closedItem_fstClusHI,
        closedItem_fileSize _ _ hlt, Nat.mod_eq_of_lt hs, Nat.div_eq_of_lt hs]
      exact ⟨hat.data.frame (fun _ _ => rfl) (fun _ _ => rfl), rfl, hat.size⟩
    · rw [Function.update_of_ne hkh]
      have hslot := hi.slot_ne hkh hw₁ hw
      exact hold.frame (hold.finds.congr hnames) (setItem_dir_of_ne im hslot _) (fun _ _ => rfl)
        fun _ _ => rfl

/-- An open of handle `h`, for a file of its own. -/
theorem AppendInv.new (hi : AppendInv g im files log) (hnone : files h = none)
    (hlog : ∀ k w', log k = some w' → w'.chain = [] ∧ files k ≠ none)
    (hw : w.bytes = [] ∧ w.chain = []) (hname : ∀ k w', log k = some w' → w'.name ≠ w.name)
    (hfinds : Finds im'.dir g.rootEntCnt w.name w.slot)
    (hkeep : ∀ k w', log k = some w' → Finds im'.dir g.rootEntCnt w'.name w'.slot)
    (hf : f.sblk = fatClusterInvalid ∧ f.size = 0 ∧ f.pos = 0 ∧ f.pIndex = w.slot) :
    AppendInv g im' (Function.update files h (some f)) (Function.update log h (some w)) := by
  obtain ⟨hb, hc⟩ := hw
  obtain ⟨hs, hz, hp, hpi⟩ := hf
  refine ⟨logged_update hi.logged, fun k w₁ hw₁ => ?_,
    hi.distinct.update (fun _ _ => Ne.symm) fun k w' _ hw' => hname k w' hw',
    hi.disjoint.update (fun _ _ hd c hc hc' => hd c hc' hc) fun k w' _ hw' => by simp [hc]⟩
  rcases log_update hw₁ with ⟨rfl, rfl⟩ | ⟨hkh, hw₁⟩
  · rw [Function.update_self]
    refine ⟨hfinds, fun f₂ he => ?_, fun he => absurd he (by simp)⟩
    obtain rfl := Option.some.inj he
    refine ⟨⟨?_, by rw [hz, hb]; rfl, by rw [hp, hb]; rfl, .inr hc⟩, hpi⟩
    rw [hs, hc, hb]
    exact FileData.empty g im'
  · rw [Function.update_of_ne hkh]
    have hold := hi.file k w₁ hw₁
    obtain ⟨hchain, hopen⟩ := hlog k w₁ hw₁
    refine ⟨hkeep k w₁ hw₁, fun f₁ he => ?_, fun he => absurd he hopen⟩
    obtain ⟨hat, hslot⟩ := hold.open_ f₁ he
    rw [hchain] at hat ⊢
    exact ⟨⟨hat.data.frame (by simp) (by simp), hat.size, hat.pos, hat.cblk⟩, hslot⟩

end Step

/-! ## Opening -/

section Runs

variable {dev : Dev} {g : Fat} {fuel : Nat}

/-- The files opened so far: handles and names. -/
def openedStep (a : List (Nat × List UInt8)) : FatEvent → List (Nat × List UInt8)
  | .fatfsOpen h path _ => (h, toSfn path) :: a
  | _ => a

/-- The files of `a` are open and empty. -/
def Opened (g : Fat) (s : FatFs) (a : List (Nat × List UInt8)) : Prop :=
  ∃ im log, Shows g s.vol im ∧ AppendInv g im s.files log ∧
    (∀ k w, log k = some w → w.bytes = [] ∧ s.files k ≠ none) ∧
    ∀ p ∈ a, ∃ w, log p.1 = some w ∧ w.name = p.2

theorem Opened.new {s : FatFs} {a : List (Nat × List UInt8)} {im im' : Image}
    {log : Nat → Option Tracked} {h : Nat} {w : Tracked} {f : File} {v : Volume}
    (hi : AppendInv g im s.files log) (hnone : s.files h = none)
    (hlog : ∀ k w, log k = some w → w.bytes = [] ∧ s.files k ≠ none)
    (ha : ∀ p ∈ a, ∃ w, log p.1 = some w ∧ w.name = p.2)
    (hw : w.bytes = [] ∧ w.chain = []) (hname : ∀ k w', log k = some w' → w'.name ≠ w.name)
    (hfinds : Finds im'.dir g.rootEntCnt w.name w.slot)
    (hkeep : ∀ k w', log k = some w' → Finds im'.dir g.rootEntCnt w'.name w'.slot)
    (hf : f.sblk = fatClusterInvalid ∧ f.size = 0 ∧ f.pos = 0 ∧ f.pIndex = w.slot)
    (hv : Shows g v im') :
    Opened g { vol := v, files := Function.update s.files h (some f) } ((h, w.name) :: a) := by
  have hchain : ∀ k w', log k = some w' → w'.chain = [] ∧ s.files k ≠ none := fun k w' hk => by
    obtain ⟨hb, ho⟩ := hlog k w' hk
    obtain ⟨sblk, hd⟩ := (hi.file k w' hk).data
    exact ⟨hd.nil_iff.mpr hb, ho⟩
  refine ⟨im', Function.update log h (some w), hv,
    hi.new hnone hchain hw hname hfinds hkeep hf, fun k w' hk => ?_, fun p hp => ?_⟩
  · dsimp only
    rcases log_update hk with ⟨rfl, rfl⟩ | ⟨hkh, hk⟩
    · exact ⟨hw.1, by simp⟩
    · rw [Function.update_of_ne hkh]
      exact hlog k w' hk
  · rcases List.mem_cons.mp hp with rfl | hp
    · exact ⟨w, Function.update_self .., rfl⟩
    · obtain ⟨w', hw', hn⟩ := ha p hp
      have hph : p.1 ≠ h := fun he => (hlog p.1 w' hw').2 (he ▸ hnone)
      exact ⟨w', by rw [Function.update_of_ne hph, hw'], hn⟩

theorem openStep_opened (hw : Works dev) (hg : g.Ok) (hfuel : 65536 < fuel) (s : FatFs)
    (e : FatEvent) (a : List (Nat × List UInt8)) (h : Opened g s a) (hp : OpenOk g s e) :
    ∃ s', fatStep dev g fuel s e = some s' ∧ Opened g s' (openedStep a e) := by
  obtain ⟨im, log, hv, hi, hlog, ha⟩ := h
  have hdir : dirOf g s = im.dir := congrArg Image.dir hv.image_eq
  cases e with
  | fatfsOpen hd path mode =>
    obtain ⟨hnone, hhead, hcase⟩ := hp
    rw [hdir] at hcase
    rcases fatfsOpen_shows hw hg hv fuel path (fileNew mode) with
      ⟨i, v₁, hf⟩ | ⟨q, v₁, item, hc⟩ | ⟨v₁, hx⟩
    · -- the file is there and is truncated
      obtain ⟨ht, i', hi', hno⟩ := hcase.resolve_right fun hc => hf.finds.not_absent hc.2.1
      obtain rfl := hi'.unique hf.finds
      obtain ⟨v₂, im₂, hfree, h₂, hfreed⟩ :=
        clusterFreeChain_total hw hg hf.shows hfuel (im.dir i').fstClusL0
      have hmode : (fileNew mode).mode &&& oTrunc ≠ 0 := ht
      have hr := hf.result
      rw [if_pos hmode, hfree] at hr
      refine ⟨_, fatStep_fatfsOpen hnone hr, Opened.new (w := ⟨toSfn path, [], i', []⟩) hi hnone
        hlog ha ⟨rfl, rfl⟩ (fun k w' hk he => ?_) (hfreed.dir ▸ hf.finds)
        (fun k w' hk => hfreed.dir ▸ (hi.file k w' hk).finds) ⟨rfl, rfl, rfl, rfl⟩ h₂⟩
      -- a file of that name would have its handle on the slot
      obtain ⟨f', hf'⟩ := Option.ne_none_iff_exists'.mp (hlog k w' hk).2
      have hslot := (hi.file k w' hk).finds
      rw [he] at hslot
      refine hno k f' hf' ?_
      rw [((hi.file k w' hk).open_ f' hf').2, hslot.unique hi']
    · -- the file is created
      have hlive : Live ((im.setItem q item).dir q) :=
        (live_congr (setItem_agree im q item).name).mpr (live_of_name hc.name_eq hhead)
      have hqn : ((im.setItem q item).dir q).name = toSfn path :=
        (setItem_agree im q item).name.trans hc.name_eq
      have hother := fun k (hk : k ≠ q) => setItem_dir_of_ne im hk item
      have hname : ∀ k w', log k = some w' → w'.name ≠ toSfn path := fun k w' hk he =>
        (he ▸ (hi.file k w' hk).finds).not_absent hc.absent
      have hsb : item.fstClusHI * 65536 + item.fstClusL0 = fatClusterInvalid := by
        rw [hc.hi_eq, hc.lo_eq, Nat.zero_mul, Nat.zero_add]
      exact ⟨_, fatStep_fatfsOpen hnone hc.result, Opened.new (w := ⟨toSfn path, [], q, []⟩) hi
        hnone hlog ha ⟨rfl, rfl⟩ hname (hc.slot.finds hc.lt hc.absent hlive hqn hother)
        (fun k w' hk => (hi.file k w' hk).finds.create hc.slot.not_live hlive
          (fun he => hname k w' hk (he.symm.trans hqn)) hother)
        ⟨hsb, hc.size_eq, rfl, rfl⟩ hc.shows⟩
    · -- no other outcome
      rcases hcase with ⟨-, i, hi', -⟩ | ⟨hcreat, -, k, hk, hfree⟩
      · exact absurd hx.absent hi'.not_absent
      · rcases hx.why with hno | hfull
        · exact absurd hno hcreat
        · exact absurd (hfull k hk) hfree
  | fatfsRead => exact absurd hp id
  | fatfsWrite => exact absurd hp id
  | fatfsSeek => exact absurd hp id
  | fatfsClose => exact absurd hp id
  | fatfsReaddir => exact absurd hp id
  | fatfsUnlink => exact absurd hp id

/-! ## Writing and closing -/

/-- What a handle has written, and whether it is closed. -/
structure Written where
  bytes : List UInt8
  closed : Bool

def writtenStep (b : Nat → Written) : FatEvent → Nat → Written
  | .fatfsWrite h buf => Function.update b h { b h with bytes := (b h).bytes ++ buf }
  | .fatfsClose h => Function.update b h { b h with closed := true }
  | _ => b

/-- The files of `a` hold what `b` says. -/
def Appended (g : Fat) (a : List (Nat × List UInt8)) (s : FatFs) (b : Nat → Written) : Prop :=
  ∃ im log, Shows g s.vol im ∧ AppendInv g im s.files log ∧
    (∀ k w, log k = some w → w.bytes = (b k).bytes ∧ (s.files k = none ↔ (b k).closed = true)) ∧
    ∀ p ∈ a, ∃ w, log p.1 = some w ∧ w.name = p.2

theorem appendStep_appended (hw : Works dev) (hg : g.Ok) (ht : g.cTotal < 65528)
    (hfuel : 65536 < fuel) (a : List (Nat × List UInt8)) (s : FatFs) (e : FatEvent)
    (b : Nat → Written) (h : Appended g a s b) (hp : AppendOk g s e) :
    ∃ s', fatStep dev g fuel s e = some s' ∧ Appended g a s' (writtenStep b e) := by
  obtain ⟨im, log, hv, hi, hlog, ha⟩ := h
  cases e with
  | fatfsWrite hd buf =>
    obtain ⟨hne, f, hfile, hfree⟩ := hp
    obtain ⟨w, hwd⟩ := hi.logged hd f hfile
    obtain ⟨hat, hslot⟩ := (hi.file hd w hwd).open_ f hfile
    rw [hv.image_eq, hat.size] at hfree
    obtain ⟨v', f', im', m, hr, h', hk, hat', hp', -⟩ :=
      fatfsWrite_fills hw hg ht hfuel hv hat hne hfree
    refine ⟨{ vol := v', files := Function.update s.files hd (some f') },
      by simp only [fatStep, hfile, hr, Option.map_some], im', _, h',
      hi.write hfile hwd hk hat' hp', fun k w' hk' => ?_, fun p hpa => ?_⟩
    · dsimp only [writtenStep]
      rcases log_update hk' with ⟨rfl, rfl⟩ | ⟨hkh, hk'⟩
      · obtain ⟨hb, hcl⟩ := hlog k w hwd
        rw [Function.update_self, Function.update_self, hb]
        exact ⟨rfl, by simp [← hcl, hfile]⟩
      · rw [Function.update_of_ne hkh, Function.update_of_ne hkh]
        exact hlog k w' hk'
    · obtain ⟨w', hw', hn⟩ := ha p hpa
      by_cases hph : p.1 = hd
      · have hww : w' = w := Option.some.inj (hw'.symm.trans (hph ▸ hwd))
        exact ⟨_, by rw [hph, Function.update_self], by rw [← hn, hww]⟩
      · exact ⟨w', by rw [Function.update_of_ne hph, hw'], hn⟩
  | fatfsClose hd =>
    obtain ⟨f, hfile⟩ := hp
    obtain ⟨w, hwd⟩ := hi.logged hd f hfile
    obtain ⟨hat, hslot⟩ := (hi.file hd w hwd).open_ f hfile
    have hlt := hat.data.length_lt hg ht
    refine ⟨{ vol := fatfsClose dev g s.vol f, files := Function.update s.files hd none },
      by simp only [fatStep, hfile], _, log,
      fatfsClose_shows hw hg hv hslot (hi.file hd w hwd).finds.lt,
      hi.close hfile hwd (by rw [hat.size]; omega), fun k w' hk' => ?_, ha⟩
    dsimp only [writtenStep]
    obtain ⟨hb, hcl⟩ := hlog k w' hk'
    by_cases hkh : k = hd
    · rw [hkh, Function.update_self, Function.update_self, ← hkh]
      exact ⟨hb, by simp⟩
    · rw [Function.update_of_ne hkh, Function.update_of_ne hkh]
      exact ⟨hb, hcl⟩
  | fatfsOpen => exact absurd hp id
  | fatfsRead => exact absurd hp id
  | fatfsSeek => exact absurd hp id
  | fatfsReaddir => exact absurd hp id
  | fatfsUnlink => exact absurd hp id

/-- The history of a run, in terms of its calls. -/
theorem foldl_writtenStep (ops : List FatEvent) (b : Nat → Written) (h : Nat) :
    ((ops.foldl writtenStep b) h).bytes = (b h).bytes ++ bytesWritten h ops ∧
      (((ops.foldl writtenStep b) h).closed = true ↔
        (b h).closed = true ∨ .fatfsClose h ∈ ops) := by
  induction ops generalizing b with
  | nil => simp [bytesWritten]
  | cons e ops ih =>
    obtain ⟨hb, hc⟩ := ih (writtenStep b e)
    rw [List.foldl_cons, hb, hc]
    cases e with
    | fatfsWrite k buf =>
      by_cases hk : h = k
      · subst hk
        simp [writtenStep, bytesWritten]
      · have hk' : ¬k = h := Ne.symm hk
        simp [writtenStep, bytesWritten, hk, hk']
    | fatfsClose k =>
      by_cases hk : h = k
      · subst hk
        simp [writtenStep, bytesWritten]
      · simp [writtenStep, bytesWritten, hk]
    | fatfsOpen => simp [writtenStep, bytesWritten]
    | fatfsRead => simp [writtenStep, bytesWritten]
    | fatfsSeek => simp [writtenStep, bytesWritten]
    | fatfsReaddir => simp [writtenStep, bytesWritten]
    | fatfsUnlink => simp [writtenStep, bytesWritten]

theorem mem_foldl_openedStep {h : Nat} {path : List UInt8} {mode : Nat} (opens : List FatEvent) :
    ∀ a : List (Nat × List UInt8), (h, toSfn path) ∈ a ∨ .fatfsOpen h path mode ∈ opens →
      (h, toSfn path) ∈ opens.foldl openedStep a := by
  induction opens with
  | nil => exact fun a hm => hm.resolve_right (by simp)
  | cons e opens ih =>
    intro a hm
    refine ih _ ?_
    rcases hm with hm | hm
    · left
      cases e with
      | fatfsOpen => exact List.mem_cons_of_mem _ hm
      | _ => exact hm
    · rcases List.mem_cons.mp hm with rfl | hm
      · exact .inl (List.mem_cons_self ..)
      · exact .inr hm

/-! ## Reading back -/

/-- Reads of any lengths go through the bytes in order. -/
theorem readChunks_reads (fuel : Nat) (hw : Works dev) (hg : g.Ok) (ht : g.cTotal < 65528)
    {im : Image} {l : List Nat} {bytes : List UInt8} (ns : List Nat) :
    ∀ {v : Volume} {f : File}, Shows g v im → Reading g im f l bytes →
      (∀ n ∈ ns, n < 2147483648) →
      ∃ v' f', readChunks dev g fuel ns v f = some (v', f', (bytes.drop f.pos).take ns.sum) ∧
        Shows g v' im ∧ Reading g im f' l bytes ∧ f'.pos = min (f.pos + ns.sum) bytes.length := by
  induction ns with
  | nil =>
    intro v f hv hr _
    refine ⟨v, f, by simp [readChunks], hv, hr, ?_⟩
    rw [List.sum_nil, Nat.add_zero, Nat.min_eq_left hr.pos_le]
  | cons n ns ih =>
    intro v f hv hr hns
    obtain ⟨hn, hns⟩ := List.forall_mem_cons.mp hns
    obtain ⟨v₁, f₁, buf, hread, hv₁, hr₁, hpos₁, hbuf⟩ :=
      fatfsRead_reads hw hg ht fuel hv hr (fun _ => 0) hn
    obtain ⟨v', f', hrest, hv', hr', hpos'⟩ := ih hv₁ hr₁ hns
    have hle := hr.pos_le
    refine ⟨v', f', ?_, hv', hr', by rw [hpos', hpos₁, List.sum_cons]; omega⟩
    have hdrop : (bytes.drop f.pos).take n ++ (bytes.drop f₁.pos).take ns.sum =
        (bytes.drop f.pos).take (n + ns.sum) := by
      rw [List.take_add, List.drop_drop, hpos₁]
      by_cases hfull : n ≤ bytes.length - f.pos
      · rw [Nat.min_eq_left hfull]
      · -- nothing is left behind a chunk that was not filled
        rw [Nat.min_eq_right (by omega), List.drop_of_length_le (i := f.pos + _) (by omega),
          List.drop_of_length_le (i := f.pos + n) (by omega)]
    simp only [readChunks, hread, hrest, Option.bind_some, Option.map_some, hbuf, hdrop,
      List.sum_cons]

/-- A closed file, opened again without truncation. -/
theorem FileInv.reopen (fuel : Nat) (hw : Works dev) (hg : g.Ok) {v : Volume} {im : Image}
    (hv : Shows g v im) {w : Tracked} (hf : FileInv g im none w) {path : List UInt8}
    (hpath : toSfn path = w.name) {mode : Nat} (hm : mode &&& oTrunc = 0) :
    ∃ v' f, fatfsOpen dev g fuel v path (fileNew mode) = some (v', f, 0) ∧ Shows g v' im ∧
      Reading g im f w.chain w.bytes ∧ f.pos = 0 := by
  obtain ⟨hdata, hhi, hsize⟩ := hf.closed rfl
  rcases fatfsOpen_shows hw hg hv fuel path (fileNew mode) with
    ⟨i, v', ho⟩ | ⟨q, v', item, hc⟩ | ⟨v', hx⟩
  · have hfi : i = w.slot := (hpath ▸ ho.finds).unique hf.finds
    have hmode : ¬(fileNew mode).mode &&& oTrunc ≠ 0 := not_not_intro hm
    have hr := ho.result
    rw [if_neg hmode] at hr
    have hs : (openedFile im (fileNew mode) i).sblk = (im.dir w.slot).fstClusL0 := by
      rw [openedFile, hfi]
      simp only [readFromDiritem, hhi, Nat.zero_mul, Nat.zero_add]
    refine ⟨v', _, hr, ho.shows, ⟨hs ▸ hdata, ?_, Nat.zero_le _, fun hne => ?_⟩, rfl⟩
    · rw [← hsize, ← hfi]
      rfl
    · -- the first cluster
      obtain ⟨c, hc⟩ := hdata.getElem?_isSome hne (Nat.zero_le _)
      rw [show (openedFile im (fileNew mode) i).pos = 0 from rfl]
      rw [Nat.zero_div] at hc ⊢
      rw [hc]
      cases hl : w.chain with
      | nil => simp [hl] at hc
      | cons b m =>
        have hp := hdata.path
        rw [hl] at hp hc
        rw [show (openedFile im (fileNew mode) i).cblk = (im.dir w.slot).fstClusL0 from hs]
        exact hc.symm.trans (congrArg some hp.1.symm)
  · exact absurd (hpath ▸ hc.absent) hf.finds.not_absent
  · exact absurd (hpath ▸ hx.absent) hf.finds.not_absent

/-- Files are created or truncated, one handle each, and then written and
closed in any interleaving: a file opened again yields, whatever the lengths
of the reads, the bytes that were written to it, in order, and 0 behind them.
No step on the way fails. -/
theorem append_round_trip (hw : Works dev) (hg : g.Ok) (ht : g.cTotal < 65528)
    (hfuel : 65536 < fuel) {s₀ : FatFs} (hc : Coherent g s₀.vol) (h₀ : ∀ h, s₀.files h = none)
    {opens ops : List FatEvent} (ho : Along (fatStep dev g fuel) (OpenOk g) s₀ opens)
    (hp : ∀ s₁, run (fatStep dev g fuel) s₀ opens = some s₁ →
      Along (fatStep dev g fuel) (AppendOk g) s₁ ops) :
    ∃ s₂, run (fatStep dev g fuel) s₀ (opens ++ ops) = some s₂ ∧
      ∀ h path mode, .fatfsOpen h path mode ∈ opens → .fatfsClose h ∈ ops →
        ∀ mode', mode' &&& oTrunc = 0 →
          ∃ v f, fatfsOpen dev g fuel s₂.vol path (fileNew mode') = some (v, f, 0) ∧
            ∀ ns, (∀ n ∈ ns, n < 2147483648) →
              ∃ v' f', readChunks dev g fuel ns v f =
                  some (v', f', (bytesWritten h ops).take ns.sum) ∧
                ∀ n, 0 < n → n < 2147483648 →
                  ∃ v'' f'' buf r, fatfsRead dev g fuel v' (fun _ => 0) n f' =
                      some (v'', f'', buf, r) ∧
                    (r = 0 ↔ (bytesWritten h ops).length ≤ ns.sum) := by
  have hstart : Opened g s₀ [] := by
    refine ⟨image g s₀.vol.disk, fun _ => none, ⟨rfl, hc⟩, ⟨fun h f hf => ?_, ?_, ?_, ?_⟩, ?_, ?_⟩
    · exact absurd hf (by simp [h₀])
    · exact fun _ _ hk => absurd hk (by simp)
    · exact fun _ _ _ _ _ hk => absurd hk (by simp)
    · exact fun _ _ _ _ _ hk => absurd hk (by simp)
    · exact fun _ _ hk => absurd hk (by simp)
    · simp
  obtain ⟨s₁, hs₁, im₁, log₁, hv₁, hi₁, hlog₁, ha₁⟩ :=
    run_simulates (openStep_opened hw hg hfuel) hstart ho
  have hmid : Appended g (opens.foldl openedStep []) s₁ fun _ => ⟨[], false⟩ := by
    refine ⟨im₁, log₁, hv₁, hi₁, fun k w hk => ?_, ha₁⟩
    obtain ⟨hb, hopen⟩ := hlog₁ k w hk
    exact ⟨hb, by simp [hopen]⟩
  obtain ⟨s₂, hs₂, im, log, hv, hi, hlog, ha⟩ :=
    run_simulates (appendStep_appended hw hg ht hfuel _) hmid (hp s₁ hs₁)
  refine ⟨s₂, run_append.mpr ⟨s₁, hs₁, hs₂⟩, fun h path mode hm hcl mode' hmode => ?_⟩
  obtain ⟨w, hwd, hname⟩ := ha _ (mem_foldl_openedStep opens [] (.inr hm))
  obtain ⟨hbytes, hclosed⟩ := foldl_writtenStep ops (fun _ => ⟨[], false⟩) h
  obtain ⟨hwb, hnone⟩ := hlog h w hwd
  have hfile : s₂.files h = none := hnone.mpr (hclosed.mpr (.inr hcl))
  rw [hbytes, List.nil_append] at hwb
  have hf := hi.file h w hwd
  rw [hfile] at hf
  obtain ⟨v, f, hopen, hv', hr, hpos⟩ := hf.reopen fuel hw hg hv hname.symm hmode
  refine ⟨v, f, hopen, fun ns hns => ?_⟩
  obtain ⟨v', f', hread, hv₂, hr', hpos'⟩ := readChunks_reads fuel hw hg ht ns hv' hr hns
  rw [hpos, List.drop_zero, hwb] at hread
  refine ⟨v', f', hread, fun n hn hlt => ?_⟩
  obtain ⟨v'', f'', buf, hlast, -⟩ := fatfsRead_reads hw hg ht fuel hv₂ hr' (fun _ => 0) hlt
  refine ⟨v'', f'', buf, _, hlast, ?_⟩
  rw [hpos', hpos, hwb]
  omega

/-- A run that ends in a state of which `p` was checked. -/
theorem run_all {s t : FatFs} {es : List FatEvent} {p : FatFs → Bool}
    (hp : (run (fatStep dev g fuel) s es).all p = true)
    (hr : run (fatStep dev g fuel) s es = some t) : p t = true := by
  rwa [hr, Option.all_some] at hp

/-- A file made on a blank volume, written in two parts and closed: two reads
of two bytes yield the three bytes. -/
theorem append_round_trip_two_writes :
    ∃ t, run (fatStep idealDev tinyFat 65537) blankFs
        ([.fatfsOpen 0 [97] oCreat] ++
          [.fatfsWrite 0 [1, 2], .fatfsWrite 0 [3], .fatfsClose 0]) = some t ∧
      ∃ v f v' f', fatfsOpen idealDev tinyFat 65537 t.vol [97] (fileNew 0) = some (v, f, 0) ∧
        readChunks idealDev tinyFat 65537 [2, 2] v f = some (v', f', [1, 2, 3]) := by
  -- the clusters that the writes need are free
  have hfirst : (run (fatStep idealDev tinyFat 65537) blankFs [.fatfsOpen 0 [97] oCreat]).all
      (fun t => (t.files 0).any fun f => decide (clusterCnt tinyFat (f.size + 2) -
        clusterCnt tinyFat f.size ≤ freeCount tinyFat (image tinyFat t.vol.disk))) = true := by
    decide +kernel
  have hsecond : (run (fatStep idealDev tinyFat 65537) blankFs
      [.fatfsOpen 0 [97] oCreat, .fatfsWrite 0 [1, 2]]).all
      (fun t => (t.files 0).any fun f => decide (clusterCnt tinyFat (f.size + 1) -
        clusterCnt tinyFat f.size ≤ freeCount tinyFat (image tinyFat t.vol.disk))) = true := by
    decide +kernel
  have hthird : (run (fatStep idealDev tinyFat 65537) blankFs
      [.fatfsOpen 0 [97] oCreat, .fatfsWrite 0 [1, 2], .fatfsWrite 0 [3]]).all
      (fun t => (t.files 0).isSome) = true := by
    decide +kernel
  have ho : Along (fatStep idealDev tinyFat 65537) (OpenOk tinyFat) blankFs
      [.fatfsOpen 0 [97] oCreat] :=
    ⟨⟨rfl, by decide, .inr ⟨by decide, fun i hf => absurd (blankFs_isEnd i) hf.live.1,
      0, by decide, fun hl => hl.1 (blankFs_isEnd 0)⟩⟩, fun _ _ => trivial⟩
  have hp : ∀ s₁, run (fatStep idealDev tinyFat 65537) blankFs [.fatfsOpen 0 [97] oCreat] =
      some s₁ → Along (fatStep idealDev tinyFat 65537) (AppendOk tinyFat) s₁
        [.fatfsWrite 0 [1, 2], .fatfsWrite 0 [3], .fatfsClose 0] := by
    intro s₁ h₁
    obtain ⟨f₁, hf₁, hfree₁⟩ := (Option.any_eq_true ..).mp (run_all hfirst h₁)
    refine ⟨⟨by decide, f₁, hf₁, of_decide_eq_true hfree₁⟩, fun s₂ h₂ => ?_⟩
    have hr₂ := run_concat.mpr ⟨s₁, h₁, h₂⟩
    obtain ⟨f₂, hf₂, hfree₂⟩ := (Option.any_eq_true ..).mp (run_all hsecond hr₂)
    refine ⟨⟨by decide, f₂, hf₂, of_decide_eq_true hfree₂⟩, fun s₃ h₃ => ?_⟩
    have hr₃ := run_concat.mpr ⟨s₂, hr₂, h₃⟩
    exact ⟨Option.isSome_iff_exists.mp (run_all hthird hr₃), fun _ _ => trivial⟩
  obtain ⟨t, ht, hback⟩ := append_round_trip idealDev_works tinyFat_ok (by decide)
    (by decide : 65536 < 65537) (blankFs_coherent tinyFat) (fun _ => rfl) ho hp
  obtain ⟨v, f, hopen, hread⟩ := hback 0 [97] oCreat (by decide) (by decide) 0 (by decide)
  obtain ⟨v', f', hchunks, -⟩ := hread [2, 2] (by decide)
  exact ⟨t, ht, v, f, v', f', hopen, hchunks⟩

end Runs

end Wjos
