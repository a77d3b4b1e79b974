/-
Wjos.Fs.Fatfs.Cluster — chains of clusters and their contents.

The transfers of `fatfs_read` and `fatfs_write` within one cluster,
`cluster_free_chain` and `cluster_alloc_free`, on a working device. Nothing
is assumed of the table: a chain may run in circles, into other chains or out
of the table.

* `clusterFreeChain_some`: the loop ends, since each round clears an entry;
* `clusterFreeChain_shows`: what it changes becomes free and was on the chain;
* `clusterAllocFree_shows`: what it changes was free; on success the set of
  the new clusters is closed under the table and contains no free cluster;
* `clusterAllocFree_path`: with enough free clusters it returns a path of
  exactly the number asked for.
-/
import Mathlib.Data.Finset.Card
import Mathlib.Data.Nat.Count
import Mathlib.Order.Interval.Finset.Nat
import Wjos.Fs.Fatfs.Table

namespace Wjos

open Lib

/-- `b` is a valid cluster on the chain from `a`. -/
abbrev OnFat (fat : Nat → Nat) (a b : Nat) : Prop :=
  OnChain fat (fun c => clusterIsValid c = true) a b

theorem not_valid_zero : ¬clusterIsValid 0 = true := by decide

/-! ## Contents -/

section Contents

variable {dev : Dev} {g : Fat} {v : Volume} {im : Image} {file : File}
  {buf : Nat → UInt8} {total nbytes : Nat}

/-- The data of a cluster starts inside the data area. -/
theorem startSector_eq (hg : g.Ok) (h₁ : 2 ≤ file.cblk) (h₂ : file.cblk < 65536) :
    startSector g file = g.dataStart + (file.cblk - 2) * g.secPerCluster := by
  have hd := hg.dataStart_lt
  have hle : (file.cblk - 2) * g.secPerCluster ≤ 65536 * 8 :=
    Nat.mul_le_mul (by omega) hg.secPerCluster_le
  have hcast : ((file.cblk : Int) - 2) * g.secPerCluster =
      (((file.cblk - 2) * g.secPerCluster : Nat) : Int) := by
    rw [Nat.cast_mul, Nat.cast_sub h₁]
    rfl
  rw [startSector, hcast, u32_add (by omega)]

theorem startSector_address (hg : g.Ok) (h₁ : 2 ≤ file.cblk) (h₂ : file.cblk < 65536) :
    startSector g file * sectorSize =
      g.dataStart * 512 + (file.cblk - 2) * g.clusterByteSize := by
  rw [startSector_eq hg h₁ h₂, hg.clusterByteSize, sectorSize, Nat.add_mul, Nat.mul_assoc]

/-- The bytes of one cluster, as the disk has them. -/
theorem image_data (h : Shows g v im) {c o : Nat} (hc : 2 ≤ c) (ho : o < g.clusterByteSize) :
    im.data c o = v.disk (g.dataStart * 512 + (c - 2) * g.clusterByteSize + o) := by
  rw [← h.image_eq]
  simp [image, hc, ho]

/-- Different clusters do not overlap. -/
theorem cluster_disjoint (cbs : Nat) {c d : Nat} (hcd : c < d) : c * cbs + cbs ≤ d * cbs :=
  calc c * cbs + cbs = (c + 1) * cbs := (Nat.succ_mul c cbs).symm
    _ ≤ d * cbs := Nat.mul_le_mul_right cbs hcd

/-- A whole cluster written: the other clusters, the tables and the directory
stay. -/
theorem image_writeCluster (hg : g.Ok) (h : Shows g v im) {c o n : Nat} (hc : 2 ≤ c)
    (hon : o + n ≤ g.clusterByteSize) {b src : Nat → UInt8}
    (hb : ∀ a < g.clusterByteSize, b a = copyTo (im.data c) o n src a) :
    image g (copyTo v.disk (g.dataStart * 512 + (c - 2) * g.clusterByteSize)
      g.clusterByteSize b) = im.setData c o n src := by
  have hlow : ∀ a, a < g.dataStart * 512 →
      copyTo v.disk (g.dataStart * 512 + (c - 2) * g.clusterByteSize) g.clusterByteSize b a =
        v.disk a := fun a ha => copyTo_of_lt (Nat.lt_of_lt_of_le ha (Nat.le_add_right _ _))
  have hroot := hg.rootStart
  have hdata := hg.dataStart
  have him := h.image_eq
  subst him
  have h₁ : (image g (copyTo v.disk (g.dataStart * 512 + (c - 2) * g.clusterByteSize)
      g.clusterByteSize b)).fat = (image g v.disk).fat := by
    funext d
    simp only [image]
    split
    next ht =>
      have hlt := (entry_address hg ht.2).1
      exact le16_congr (hlow _ (by omega)) (hlow _ (by omega))
    next => rfl
  have h₂ : (image g (copyTo v.disk (g.dataStart * 512 + (c - 2) * g.clusterByteSize)
      g.clusterByteSize b)).dir = (image g v.disk).dir := by
    funext i j
    simp only [image]
    split
    next hij =>
      have hw := hg.rootWhole
      exact hlow _ (by omega)
    next => rfl
  have h₃ : (image g (copyTo v.disk (g.dataStart * 512 + (c - 2) * g.clusterByteSize)
      g.clusterByteSize b)).data =
      Function.update (image g v.disk).data c (copyTo ((image g v.disk).data c) o n src) := by
    funext d p
    rw [Function.update_apply]
    by_cases hp : 2 ≤ d ∧ p < g.clusterByteSize
    · have hl : (image g (copyTo v.disk (g.dataStart * 512 + (c - 2) * g.clusterByteSize)
          g.clusterByteSize b)).data d p =
          copyTo v.disk (g.dataStart * 512 + (c - 2) * g.clusterByteSize) g.clusterByteSize b
            (g.dataStart * 512 + (d - 2) * g.clusterByteSize + p) := if_pos hp
      rw [hl]
      rcases Nat.lt_trichotomy d c with hdc | hdc | hdc
      · have hle := cluster_disjoint g.clusterByteSize (show d - 2 < c - 2 by omega)
        rw [if_neg (Nat.ne_of_lt hdc), copyTo_of_lt (by omega), image_data h hp.1 hp.2]
      · rw [if_pos hdc, hdc, copyTo_add hp.2, hb p hp.2]
      · have hle := cluster_disjoint g.clusterByteSize (show c - 2 < d - 2 by omega)
        rw [if_neg (Nat.ne_of_gt hdc), copyTo_of_ge (by omega), image_data h hp.1 hp.2]
    · have hz : ∀ disk, (image g disk).data d p = 0 := fun disk => if_neg hp
      rw [hz]
      split
      next hdc =>
        subst hdc
        rw [copyTo_of_ge (by omega), hz]
      next => exact (hz _).symm
  unfold Image.setData
  rw [← h₁, ← h₂, ← h₃]

/-- The part of a request that lies in the current cluster. -/
theorem currPart_eq (hg : g.Ok) {o : Nat} (ho : o < g.clusterByteSize)
    (hn : nbytes < 2147483648) : currPart g o nbytes = min nbytes (g.clusterByteSize - o) := by
  have hle := hg.clusterByteSize_le
  rw [currPart, u32_add (by omega)]
  split <;> omega

theorem devReadBuffer_eq (hw : Works dev) (v : Volume) (addr n : Nat) :
    devReadBuffer dev v addr n =
      ({ v with
          fatBuffer := copyTo v.fatBuffer 0 (n * sectorSize) fun i => v.disk (addr * sectorSize + i)
          calls := v.calls + 1 }, (n : Int)) := by
  simp only [devReadBuffer, devRead, hw v.calls n, Int.toNat_natCast, Nat.min_self]

/-- No sector is cached after `curr_sector = -1`. -/
theorem coherent_uncached (hv : v.currSector = -1) : Coherent g v := fun s hs => by
  rw [hv] at hs
  exact absurd hs (by omega)

theorem readCluster_shows (hw : Works dev) (hg : g.Ok) (h : Shows g v im)
    (h₁ : 2 ≤ file.cblk) (h₂ : file.cblk < 65536) (hn : nbytes < 2147483648) (total : Nat)
    (buf : Nat → UInt8) :
    ∃ v' buf' err, readCluster dev g v file buf total nbytes =
        (v', buf', err, min nbytes (g.clusterByteSize - file.pos % g.clusterByteSize)) ∧
      0 ≤ err ∧ Shows g v' im ∧ (∀ a < total, buf' a = buf a) ∧
      ∀ i < min nbytes (g.clusterByteSize - file.pos % g.clusterByteSize),
        buf' (total + i) = im.data file.cblk (file.pos % g.clusterByteSize + i) := by
  have haddr := startSector_address hg h₁ h₂
  have hlen : g.secPerCluster * sectorSize = g.clusterByteSize := hg.clusterByteSize.symm
  have hoff : file.pos % g.clusterByteSize < g.clusterByteSize :=
    Nat.mod_lt _ hg.clusterByteSize_pos
  unfold readCluster
  dsimp only
  generalize hcbs : g.clusterByteSize = cbs at *
  generalize file.pos % cbs = o at *
  by_cases hwhole : o = 0 ∧ nbytes = cbs
  · obtain ⟨rfl, rfl⟩ := hwhole
    rw [if_pos ⟨rfl, rfl⟩, Nat.sub_zero, Nat.min_self]
    simp only [devRead, hw v.calls, Int.toNat_natCast, Nat.min_self, hlen, haddr]
    refine ⟨_, _, _, rfl, Int.natCast_nonneg _, ⟨h.image_eq, h.coherent⟩, fun a ha => ?_,
      fun i hi => ?_⟩
    · exact if_neg (Nat.not_le_of_lt ha)
    · rw [if_pos (Nat.le_add_right _ _), Nat.add_sub_cancel_left, copyTo_zero_of_lt hi,
        Nat.zero_add, image_data h h₁ (hcbs.symm ▸ hi), hcbs]
  · rw [if_neg hwhole, currPart_eq hg (hcbs.symm ▸ hoff) hn, hcbs]
    simp only [devReadBuffer_eq hw, hlen, haddr]
    rw [if_neg (by omega)]
    refine ⟨_, _, _, rfl, Int.natCast_nonneg _, ⟨h.image_eq, coherent_uncached rfl⟩,
      fun a ha => copyTo_of_lt ha, fun i hi => ?_⟩
    rw [copyTo_add hi, copyTo_zero_of_lt (by omega),
      image_data h h₁ (show o + i < g.clusterByteSize by omega), hcbs]

theorem writeCluster_shows (hw : Works dev) (hg : g.Ok) (h : Shows g v im)
    (h₁ : 2 ≤ file.cblk) (h₂ : file.cblk < 65536) (hn : nbytes < 2147483648) (total : Nat)
    (buf : Nat → UInt8) :
    ∃ v' err, writeCluster dev g v file buf total nbytes =
        (v', err, min nbytes (g.clusterByteSize - file.pos % g.clusterByteSize)) ∧
      0 ≤ err ∧
      Shows g v' (im.setData file.cblk (file.pos % g.clusterByteSize)
        (min nbytes (g.clusterByteSize - file.pos % g.clusterByteSize))
        fun i => buf (total + i)) := by
  have haddr := startSector_address hg h₁ h₂
  have hlen : g.secPerCluster * sectorSize = g.clusterByteSize := hg.clusterByteSize.symm
  have hoff : file.pos % g.clusterByteSize < g.clusterByteSize :=
    Nat.mod_lt _ hg.clusterByteSize_pos
  unfold writeCluster
  dsimp only
  generalize file.pos % g.clusterByteSize = o at *
  by_cases hwhole : o = 0 ∧ nbytes = g.clusterByteSize
  · obtain ⟨rfl, rfl⟩ := hwhole
    rw [if_pos ⟨rfl, rfl⟩, Nat.sub_zero, Nat.min_self]
    simp only [devWrite, hw v.calls, Int.toNat_natCast, Nat.min_self, hlen, haddr]
    refine ⟨_, _, rfl, Int.natCast_nonneg _,
      image_writeCluster hg h h₁ (by omega) fun a ha => by rw [copyTo_zero_of_lt ha],
      fun s hs => ?_⟩
    obtain ⟨hlt, hbuf⟩ := h.coherent s hs
    have hout : ∀ i < 512,
        s * 512 + i < g.dataStart * 512 + (file.cblk - 2) * g.clusterByteSize := fun i hi =>
      Nat.lt_of_lt_of_le (Nat.add_lt_add_left hi _)
        (Nat.le_trans (sector_end_le hlt (Nat.le_refl _)) (Nat.le_add_right _ _))
    refine ⟨hlt, fun i hi => ?_⟩
    dsimp only
    rw [copyTo_of_lt (hout i hi), hbuf i hi]
  · rw [if_neg hwhole, currPart_eq hg hoff hn]
    simp only [devReadBuffer_eq hw, hlen, haddr]
    rw [if_neg (by omega)]
    simp only [devWrite, hw _, Int.toNat_natCast, Nat.min_self, hlen, haddr]
    refine ⟨_, _, rfl, Int.natCast_nonneg _,
      image_writeCluster hg h h₁ (by omega) fun a ha => ?_, coherent_uncached rfl⟩
    unfold copyTo
    split
    · rfl
    · rw [if_pos ⟨Nat.zero_le a, by omega⟩, image_data h h₁ ha, Nat.sub_zero]

end Contents

/-! ## Freeing a chain -/

section FreeChain

variable {dev : Dev} {g : Fat} {v v' : Volume} {im : Image}

@[simp] theorem setNext_dir (g : Fat) (im : Image) (c x : Nat) :
    (im.setNext g c x).dir = im.dir := rfl

@[simp] theorem setNext_data (g : Fat) (im : Image) (c x : Nat) :
    (im.setNext g c x).data = im.data := rfl

theorem setNext_fat (g : Fat) (im : Image) {c : Nat} (hc : InTable g c) (x : Nat) :
    (im.setNext g c x).fat = Function.update im.fat c x := if_pos hc

theorem setNext_fat_of_not {g : Fat} {c : Nat} (im : Image) (hc : ¬InTable g c) (x : Nat) :
    (im.setNext g c x).fat = im.fat := if_neg hc

/-- What freeing the chain from `start` leaves: every entry as it was, or free
and on the chain. -/
structure Freed (im im' : Image) (start : Nat) : Prop where
  dir : im'.dir = im.dir
  data : im'.data = im.data
  fat : ∀ c, im'.fat c = im.fat c ∨ im'.fat c = 0 ∧ OnFat im.fat start c

theorem Freed.refl (im : Image) (start : Nat) : Freed im im start :=
  ⟨rfl, rfl, fun _ => .inl rfl⟩

/-- One round, followed by freeing the rest. -/
theorem Freed.round {im' : Image} {start : Nat} (hv : clusterIsValid start = true)
    (h : Freed (im.setNext g start 0) im' (im.fat start)) : Freed im im' start := by
  refine ⟨h.dir, h.data, fun c => ?_⟩
  by_cases ht : InTable g start
  · have hfat := h.fat c
    rw [setNext_fat g im ht] at hfat
    rcases hfat with he | ⟨hz, hc⟩
    · by_cases hcs : c = start
      · subst hcs
        rw [Function.update_self] at he
        exact .inr ⟨he, OnChain.refl hv⟩
      · rw [Function.update_of_ne hcs] at he
        exact .inl he
    · exact .inr ⟨hz, OnChain.head hv (hc.of_update not_valid_zero)⟩
  · have hfat := h.fat c
    rw [setNext_fat_of_not im ht] at hfat
    rcases hfat with he | ⟨hz, hc⟩
    · exact .inl he
    · exact .inr ⟨hz, OnChain.head hv hc⟩

/-- One round of the loop. -/
theorem clusterFreeChain_round (hw : Works dev) (hg : g.Ok) (h : Shows g v im) {start : Nat}
    (hv : clusterIsValid start = true) (fuel : Nat) :
    ∃ v₁, Shows g v₁ (im.setNext g start 0) ∧
      clusterFreeChain dev g (fuel + 1) v start =
        clusterFreeChain dev g fuel v₁ (im.fat start) := by
  obtain ⟨v₁, hget, h₁⟩ := clusterGetNext_shows hw hg h start
  obtain ⟨v₂, err, hset, h₂, -⟩ := clusterSetNext_shows hw hg h₁ start (x := 0) (by decide)
  refine ⟨v₂, h₂, ?_⟩
  rw [clusterFreeChain, if_pos hv]
  simp only [hget, hset, fatClusterFree]

theorem clusterFreeChain_shows (hw : Works dev) (hg : g.Ok) (fuel : Nat) :
    ∀ {v : Volume} {im : Image} {start : Nat}, Shows g v im →
      clusterFreeChain dev g fuel v start = some v' →
      ∃ im', Shows g v' im' ∧ Freed im im' start := by
  induction fuel with
  | zero =>
    intro v im start h hr
    rw [clusterFreeChain] at hr
    split at hr
    · exact absurd hr (by simp)
    · obtain rfl : v = v' := Option.some.inj hr
      exact ⟨im, h, Freed.refl im start⟩
  | succ fuel ih =>
    intro v im start h hr
    cases hv : clusterIsValid start with
    | false =>
      rw [clusterFreeChain_of_not_valid hv] at hr
      obtain rfl : v = v' := Option.some.inj hr
      exact ⟨im, h, Freed.refl im start⟩
    | true =>
      obtain ⟨v₁, h₁, hround⟩ := clusterFreeChain_round hw hg h hv fuel
      rw [hround] at hr
      obtain ⟨im', h', hfreed⟩ := ih h₁ hr
      exact ⟨im', h', hfreed.round hv⟩

/-- How many clusters are not free. -/
def nonFree (im : Image) : Nat := ((Finset.range 65536).filter fun c => im.fat c ≠ 0).card

theorem nonFree_le (im : Image) : nonFree im ≤ 65536 := by
  have h := Finset.card_filter_le (Finset.range 65536) fun c => im.fat c ≠ 0
  rwa [Finset.card_range] at h

/-- Freeing a cluster that was not free leaves fewer of them. -/
theorem nonFree_setNext_lt {c : Nat} (hc : InTable g c) (hn : im.fat c ≠ 0) :
    nonFree (im.setNext g c 0) < nonFree im := by
  have hlt := hc.lt
  refine Finset.card_lt_card (Finset.ssubset_iff_of_subset ?_ |>.mpr ⟨c, ?_, ?_⟩)
  · intro d hd
    rw [Finset.mem_filter, setNext_fat g im hc] at hd
    rw [Finset.mem_filter]
    refine ⟨hd.1, ?_⟩
    have hdc : d ≠ c := by
      rintro rfl
      exact hd.2 (Function.update_self ..)
    rw [← Function.update_of_ne hdc 0 im.fat]
    exact hd.2
  · rw [Finset.mem_filter, Finset.mem_range]
    exact ⟨by omega, hn⟩
  · rw [Finset.mem_filter, setNext_fat g im hc]
    simp

/-- The loop ends: a round that does not end it clears an entry. -/
theorem clusterFreeChain_some (hw : Works dev) (hg : g.Ok) (fuel : Nat) :
    ∀ {v : Volume} {im : Image} (start : Nat), Shows g v im → nonFree im < fuel →
      ∃ v', clusterFreeChain dev g fuel v start = some v' := by
  induction fuel with
  | zero => exact fun _ _ hn => absurd hn (Nat.not_lt_zero _)
  | succ fuel ih =>
    intro v im start h hn
    cases hv : clusterIsValid start with
    | false => exact ⟨v, clusterFreeChain_of_not_valid hv _ v⟩
    | true =>
      obtain ⟨v₁, h₁, hround⟩ := clusterFreeChain_round hw hg h hv fuel
      rw [hround]
      by_cases hnext : clusterIsValid (im.fat start) = false
      · exact ⟨v₁, clusterFreeChain_of_not_valid hnext _ v₁⟩
      · have ht : InTable g start := by
          by_contra ht
          rw [fat_of_not_inTable h ht] at hnext
          exact hnext (by decide)
        have hne : im.fat start ≠ 0 := fun he => hnext (by rw [he]; decide)
        exact ih (im.fat start) h₁ (by have := nonFree_setNext_lt ht hne; omega)

/-- Freeing a chain, with enough fuel. -/
theorem clusterFreeChain_total (hw : Works dev) (hg : g.Ok) (h : Shows g v im) {fuel : Nat}
    (hf : 65536 < fuel) (start : Nat) :
    ∃ v' im', clusterFreeChain dev g fuel v start = some v' ∧ Shows g v' im' ∧
      Freed im im' start := by
  obtain ⟨v', hr⟩ := clusterFreeChain_some hw hg fuel start h
    (Nat.lt_of_le_of_lt (nonFree_le im) hf)
  obtain ⟨im', h', hfreed⟩ := clusterFreeChain_shows hw hg fuel h hr
  exact ⟨v', im', hr, h', hfreed⟩

end FreeChain

/-! ## Allocating a chain -/

section Alloc

variable {dev : Dev} {g : Fat} {v v' : Volume} {im im₁ : Image} {pre start : Nat}

/-- The clusters `S` taken so far in the loop of `cluster_alloc_free`: they
were free, they point to each other, and only the last one may still be
marked free. -/
structure Taken (im im₁ : Image) (S : Nat → Prop) (pre start : Nat) : Prop where
  dir : im₁.dir = im.dir
  data : im₁.data = im.data
  free : ∀ c, S c → im.fat c = 0
  other : ∀ c, ¬S c → im₁.fat c = im.fat c
  next : ∀ c, S c → S (im₁.fat c) ∨ c = pre ∧ im₁.fat c = 0
  ends : S pre ∧ S start ∨ (∀ c, ¬S c) ∧ pre = fatClusterInvalid ∧ start = fatClusterInvalid

/-- What `cluster_alloc_free` did, by its result `r`. -/
inductive Alloced (im im' : Image) (r : Nat) : Prop where
  | failed (hr : r = fatClusterInvalid) (dir : im'.dir = im.dir) (data : im'.data = im.data)
      (fat : ∀ c, im'.fat c = im.fat c ∨ im.fat c = 0)
  | done (S : Nat → Prop) (dir : im'.dir = im.dir) (data : im'.data = im.data)
      (free : ∀ c, S c → im.fat c = 0) (other : ∀ c, ¬S c → im'.fat c = im.fat c)
      (next : ∀ c, S c → S (im'.fat c) ∨ im'.fat c = fatClusterInvalid) (hr : S r)

namespace Taken

variable {S : Nat → Prop}

/-- Nothing is taken at the start. -/
theorem init (im : Image) :
    Taken im im (fun _ => False) fatClusterInvalid fatClusterInvalid :=
  ⟨rfl, rfl, fun _ h => h.elim, fun _ _ => rfl, fun _ h => h.elim,
    .inr ⟨fun _ h => h, rfl, rfl⟩⟩

theorem inTable (ht : Taken im im₁ S pre start) (h₀ : Shows g v im) {c : Nat} (hc : S c) :
    InTable g c := inTable_of_fat_zero h₀ (ht.free c hc)

/-- A chain of taken clusters stays among them. -/
theorem onFat (ht : Taken im im₁ S pre start) {c : Nat} (hc : OnFat im₁.fat start c) : S c := by
  refine hc.closed (fun x hx hv => ?_) ?_
  · rcases ht.next x hx with hn | ⟨-, hz⟩
    · exact hn
    · rw [hz] at hv
      exact absurd hv not_valid_zero
  · rcases ht.ends with ⟨-, hs⟩ | ⟨-, -, rfl⟩
    · exact hs
    · exact absurd hc.valid_left (by decide)

/-- Giving up frees what was taken. -/
theorem failed (ht : Taken im im₁ S pre start) {im' : Image} (hf : Freed im₁ im' start) :
    Alloced im im' fatClusterInvalid := by
  refine .failed rfl (hf.dir.trans ht.dir) (hf.data.trans ht.data) fun c => ?_
  by_cases hc : S c
  · exact .inr (ht.free c hc)
  · rcases hf.fat c with he | ⟨-, hon⟩
    · exact .inl (he.trans (ht.other c hc))
    · exact absurd (ht.onFat hon) hc

/-- The last cluster is marked as the end. -/
theorem done (ht : Taken im im₁ S pre start) (h₀ : Shows g v im) (hp : S pre) (hs : S start) :
    Alloced im (im₁.setNext g pre fatClusterInvalid) start := by
  have hfat := setNext_fat g im₁ (ht.inTable h₀ hp) fatClusterInvalid
  refine .done S ht.dir ht.data ht.free (fun c hc => ?_) (fun c hc => ?_) hs
  · have hcp : c ≠ pre := fun he => hc (he ▸ hp)
    rw [hfat, Function.update_of_ne hcp, ht.other c hc]
  · rw [hfat]
    by_cases hcp : c = pre
    · subst hcp
      exact .inr (Function.update_self ..)
    · rw [Function.update_of_ne hcp]
      rcases ht.next c hc with hn | ⟨he, -⟩
      · exact .inl hn
      · exact absurd he hcp

/-- One more cluster, the first one. -/
theorem first (ht : Taken im im₁ S pre start) (hS : ∀ c, ¬S c) {curr : Nat}
    (hfree : im₁.fat curr = 0) : Taken im im₁ (fun c => c = curr) curr curr := by
  refine ⟨ht.dir, ht.data, fun c hc => ?_, fun c _ => ht.other c (hS c),
    fun c hc => .inr ⟨hc, hc ▸ hfree⟩, .inl ⟨rfl, rfl⟩⟩
  rw [hc, ← ht.other curr (hS curr), hfree]

/-- One more cluster, linked behind `pre`. -/
theorem more (ht : Taken im im₁ S pre start) (h₀ : Shows g v im) (hp : S pre) (hs : S start)
    {curr : Nat} (hfree : im₁.fat curr = 0) :
    Taken im (im₁.setNext g pre curr) (fun c => S c ∨ c = curr) curr start := by
  have hfat := setNext_fat g im₁ (ht.inTable h₀ hp) curr
  refine ⟨ht.dir, ht.data, fun c hc => ?_, fun c hc => ?_, fun c hc => ?_,
    .inl ⟨.inr rfl, .inl hs⟩⟩
  · by_cases hSc : S c
    · exact ht.free c hSc
    · obtain rfl : c = curr := hc.resolve_left hSc
      rw [← ht.other c hSc, hfree]
  · have hcp : c ≠ pre := fun he => hc (.inl (he ▸ hp))
    rw [hfat, Function.update_of_ne hcp, ht.other c fun hSc => hc (.inl hSc)]
  · rw [hfat]
    by_cases hcp : c = pre
    · subst hcp
      exact .inl (.inr (Function.update_self ..))
    · rw [Function.update_of_ne hcp]
      by_cases hSc : S c
      · rcases ht.next c hSc with hn | ⟨he, -⟩
        · exact .inl (.inl hn)
        · exact absurd he hcp
      · obtain rfl : c = curr := hc.resolve_left hSc
        exact .inr ⟨rfl, hfree⟩

end Taken

theorem clusterAllocFailed_shows (hw : Works dev) (hg : g.Ok) {S : Nat → Prop}
    (ht : Taken im im₁ S pre start) (h : Shows g v im₁) {fuel r : Nat}
    (hr : clusterAllocFailed dev g fuel v start = some (v', r)) :
    ∃ im', Shows g v' im' ∧ Alloced im im' r := by
  obtain ⟨v₁, hfree, he⟩ := Option.map_eq_some_iff.mp hr
  obtain ⟨rfl, rfl⟩ := Prod.mk.inj he
  obtain ⟨im', h', hf⟩ := clusterFreeChain_shows hw hg fuel h hfree
  exact ⟨im', h', ht.failed hf⟩

theorem clusterAllocEnd_shows (hw : Works dev) (hg : g.Ok) {v₀ : Volume} (h₀ : Shows g v₀ im)
    {S : Nat → Prop} (ht : Taken im im₁ S pre start) (h : Shows g v im₁) {fuel cnt r : Nat}
    (hr : clusterAllocEnd dev g fuel v pre start cnt = some (v', r)) :
    ∃ im', Shows g v' im' ∧ Alloced im im' r := by
  unfold clusterAllocEnd at hr
  split at hr
  · obtain ⟨v₁, err, hset, h₁, -, herr⟩ :=
      clusterSetNext_shows hw hg h pre (x := fatClusterInvalid) (by decide)
    rw [hset] at hr
    dsimp only at hr
    rcases ht.ends with ⟨hp, hs⟩ | ⟨hS, rfl, rfl⟩
    · rw [if_pos (herr (ht.inTable h₀ hp))] at hr
      obtain ⟨rfl, rfl⟩ := Prod.mk.inj (Option.some.inj hr)
      exact ⟨_, h₁, ht.done h₀ hp hs⟩
    · -- no cluster was asked for: the entry of an invalid cluster cannot be set
      have hn : ¬InTable g fatClusterInvalid := fun hc => absurd hc.valid (by decide)
      rw [show im₁.setNext g fatClusterInvalid fatClusterInvalid = im₁ by
        rw [Image.setNext, if_neg hn]] at h₁
      split at hr
      · obtain ⟨rfl, rfl⟩ := Prod.mk.inj (Option.some.inj hr)
        exact ⟨im₁, h₁, .failed rfl ht.dir ht.data fun c => .inl (ht.other c (hS c))⟩
      · exact clusterAllocFailed_shows hw hg ht h₁ hr
  · exact clusterAllocFailed_shows hw hg ht h hr

theorem clusterAllocLoop_shows (hw : Works dev) (hg : g.Ok) {v₀ : Volume} (h₀ : Shows g v₀ im)
    (fuel n : Nat) {r : Nat} :
    ∀ {v : Volume} {im₁ : Image} {S : Nat → Prop} {pre start curr cnt : Nat},
      Taken im im₁ S pre start → Shows g v im₁ →
      clusterAllocLoop dev g fuel n v pre start curr cnt = some (v', r) →
      ∃ im', Shows g v' im' ∧ Alloced im im' r := by
  induction n with
  | zero => exact fun _ _ hr => absurd hr (by simp [clusterAllocLoop])
  | succ n ih =>
    intro v im₁ S pre start curr cnt ht h hr
    rw [clusterAllocLoop] at hr
    split at hr
    next =>
      obtain ⟨v₁, hget, h₁⟩ := clusterGetNext_shows hw hg h curr
      rw [hget] at hr
      dsimp only at hr
      split at hr
      next hfree =>
        have hcurr := inTable_of_fat_zero h hfree
        rcases ht.ends with ⟨hp, hs⟩ | ⟨hS, rfl, rfl⟩
        · obtain ⟨v₂, err, hset, h₂, herr, -⟩ :=
            clusterSetNext_shows hw hg h₁ pre (x := curr) (by have := hcurr.lt; omega)
          have hpv := (ht.inTable h₀ hp).valid
          have hok : ¬err < 0 := by simp [herr, hpv]
          rw [if_pos hpv, hset] at hr
          dsimp only at hr
          rw [if_neg hok, if_pos (ht.inTable h₀ hs).valid] at hr
          exact ih (ht.more h₀ hp hs hfree) h₂ hr
        · have hni : clusterIsValid fatClusterInvalid ≠ true := by decide
          simp only [if_neg hni] at hr
          exact ih (ht.first hS hfree) h₁ hr
      next => exact ih ht h₁ hr
    next => exact clusterAllocEnd_shows hw hg h₀ ht h hr

theorem clusterAllocFree_shows (hw : Works dev) (hg : g.Ok) (h : Shows g v im)
    {fuel cnt r : Nat} (hr : clusterAllocFree dev g fuel v cnt = some (v', r)) :
    ∃ im', Shows g v' im' ∧ Alloced im im' r :=
  clusterAllocLoop_shows hw hg h fuel fuel (Taken.init im) h hr

end Alloc

/-! ## Allocating from enough free clusters -/

section AllocPath

variable {dev : Dev} {g : Fat} {v v' : Volume} {im im₁ : Image} {pre start curr : Nat}
  {l : List Nat}

/-- The free clusters with an entry in the table. -/
def freeCount (g : Fat) (im : Image) : Nat := Nat.count (fun c => im.fat c = 0) g.cTotal

/-- A new chain `l` of clusters that were free. -/
structure Fresh (im im' : Image) (start : Nat) (l : List Nat) : Prop where
  dir : im'.dir = im.dir
  data : im'.data = im.data
  free : ∀ c ∈ l, im.fat c = 0
  other : ∀ c, c ∉ l → im'.fat c = im.fat c
  nodup : l.Nodup
  path : Path im'.fat start l fatClusterInvalid

/-- The chain built so far: `l` in ascending order below `curr`, whose last
cluster is still marked free. -/
structure Building (im im₁ : Image) (l : List Nat) (pre start curr : Nat) : Prop where
  dir : im₁.dir = im.dir
  data : im₁.data = im.data
  free : ∀ c ∈ l, im.fat c = 0
  other : ∀ c, c ∉ l → im₁.fat c = im.fat c
  nodup : l.Nodup
  below : ∀ c ∈ l, c < curr
  path : l = [] ∧ pre = fatClusterInvalid ∧ start = fatClusterInvalid ∨
    ∃ l', l = l' ++ [pre] ∧ Path im₁.fat start l 0

namespace Building

theorem init (im : Image) : Building im im [] fatClusterInvalid fatClusterInvalid 2 :=
  ⟨rfl, rfl, by simp, fun _ _ => rfl, List.nodup_nil, by simp, .inl ⟨rfl, rfl, rfl⟩⟩

theorem skip (hb : Building im im₁ l pre start curr) :
    Building im im₁ l pre start (curr + 1) :=
  ⟨hb.dir, hb.data, hb.free, hb.other, hb.nodup,
    fun c hc => Nat.lt_succ_of_lt (hb.below c hc), hb.path⟩

theorem fat_curr (hb : Building im im₁ l pre start curr) : im₁.fat curr = im.fat curr :=
  hb.other curr fun hc => Nat.lt_irrefl _ (hb.below curr hc)

/-- A list without repetition, with a larger cluster behind it. -/
theorem nodup_concat (hb : Building im im₁ l pre start curr) : (l ++ [curr]).Nodup := by
  rw [List.nodup_append]
  refine ⟨hb.nodup, List.nodup_singleton curr, fun a ha b hb' => ?_⟩
  rw [List.mem_singleton.mp hb']
  exact Nat.ne_of_lt (hb.below a ha)

theorem first (hb : Building im im₁ [] pre start curr) (hf : im.fat curr = 0) :
    Building im im₁ [curr] curr curr (curr + 1) := by
  refine ⟨hb.dir, hb.data, by simpa using hf, fun c _ => hb.other c (by simp),
    List.nodup_singleton curr, by simp, .inr ⟨[], rfl, ?_⟩⟩
  simpa [hb.fat_curr] using hf

theorem more (hb : Building im im₁ l pre start curr) (hf : im.fat curr = 0) {l' : List Nat}
    (hl : l = l' ++ [pre]) (hp : Path im₁.fat start l 0) (hpre : InTable g pre) :
    Building im (im₁.setNext g pre curr) (l ++ [curr]) curr start (curr + 1) := by
  have hfat := setNext_fat g im₁ hpre curr
  have hmem : pre ∈ l := by simp [hl]
  have hne : curr ≠ pre := Nat.ne_of_gt (hb.below pre hmem)
  refine ⟨hb.dir, hb.data, fun c hc => ?_, fun c hc => ?_, hb.nodup_concat, fun c hc => ?_,
    .inr ⟨l, rfl, ?_⟩⟩
  · rcases List.mem_append.mp hc with hc | hc
    · exact hb.free c hc
    · rw [List.mem_singleton.mp hc, hf]
  · rw [List.mem_append, not_or] at hc
    have hcp : c ≠ pre := fun he => hc.1 (he ▸ hmem)
    rw [hfat, Function.update_of_ne hcp, hb.other c hc.1]
  · rcases List.mem_append.mp hc with hc | hc
    · exact Nat.lt_succ_of_lt (hb.below c hc)
    · rw [List.mem_singleton.mp hc]
      exact Nat.lt_succ_self curr
  · have hnot : pre ∉ l' := by
      have hnd := hb.nodup
      rw [hl, List.nodup_append] at hnd
      exact fun hc => hnd.2.2 pre hc pre (by simp) rfl
    rw [path_concat, hfat, Function.update_of_ne hne, hb.fat_curr]
    exact ⟨hl ▸ (hl ▸ hp).relink hnot, hf⟩

/-- The last cluster marked as the end of the chain. -/
theorem fresh (hb : Building im im₁ l pre start curr) {l' : List Nat} (hl : l = l' ++ [pre])
    (hp : Path im₁.fat start l 0) (hpre : InTable g pre) :
    Fresh im (im₁.setNext g pre fatClusterInvalid) start l := by
  have hfat := setNext_fat g im₁ hpre fatClusterInvalid
  have hmem : pre ∈ l := by simp [hl]
  refine ⟨hb.dir, hb.data, hb.free, fun c hc => ?_, hb.nodup, ?_⟩
  · have hcp : c ≠ pre := fun he => hc (he ▸ hmem)
    rw [hfat, Function.update_of_ne hcp, hb.other c hc]
  · have hnot : pre ∉ l' := by
      have hnd := hb.nodup
      rw [hl, List.nodup_append] at hnd
      exact fun hc => hnd.2.2 pre hc pre (by simp) rfl
    rw [hfat]
    exact hl ▸ (hl ▸ hp).relink hnot

end Building

/-- A free cluster that is not counted yet is further on. -/
theorem exists_free_ge (h : Nat.count (fun c => im.fat c = 0) curr < freeCount g im) :
    ∃ c, curr ≤ c ∧ im.fat c = 0 := by
  by_contra hno
  have hall : ∀ n, Nat.count (fun c => im.fat c = 0) n ≤
      Nat.count (fun c => im.fat c = 0) curr := by
    intro n
    induction n with
    | zero => simp
    | succ n ih =>
      rcases Nat.lt_or_ge n curr with hlt | hge
      · exact Nat.count_monotone _ hlt
      · have hn : ¬im.fat n = 0 := fun hz => hno ⟨n, hge, hz⟩
        rw [Nat.count_succ, if_neg hn]
        exact ih
  exact absurd h (Nat.not_lt_of_le (hall _))

/-- The loop finds `cnt` more clusters when there are that many from `curr`
on. -/
theorem clusterAllocLoop_path (hw : Works dev) (hg : g.Ok) {v₀ : Volume} (h₀ : Shows g v₀ im)
    (fuel n : Nat) :
    ∀ {v : Volume} {im₁ : Image} {l : List Nat} {pre start curr : Nat} (cnt : Nat),
      Building im im₁ l pre start curr → Shows g v im₁ → 0 < l.length + cnt →
      cnt + Nat.count (fun c => im.fat c = 0) curr ≤ freeCount g im → curr ≤ 65536 →
      65536 - curr < n →
      ∃ v' start' im' l', clusterAllocLoop dev g fuel n v pre start curr cnt =
          some (v', start') ∧
        Shows g v' im' ∧ Fresh im im' start' l' ∧ l'.length = l.length + cnt := by
  induction n with
  | zero => exact fun _ _ _ _ _ _ hn => absurd hn (Nat.not_lt_zero _)
  | succ n ih =>
    intro v im₁ l pre start curr cnt hb h hpos hcnt hle hn
    have hmem : ∀ c ∈ l, InTable g c := fun c hc => inTable_of_fat_zero h₀ (hb.free c hc)
    rw [clusterAllocLoop]
    by_cases hgo : cnt ≠ 0 ∧ curr < g.cTotal
    · obtain ⟨hne, hlt⟩ := hgo
      -- a cluster ahead is free, so the 16-bit index does not wrap
      obtain ⟨c, hge, hz⟩ := exists_free_ge
        (show Nat.count (fun c => im.fat c = 0) curr < freeCount g im by omega)
      have hc := (inTable_of_fat_zero h₀ hz).lt
      have hsucc : (curr + 1) % 65536 = curr + 1 := Nat.mod_eq_of_lt (by omega)
      obtain ⟨v₁, hget, h₁⟩ := clusterGetNext_shows hw hg h curr
      rw [if_pos ⟨hne, hlt⟩, hget]
      dsimp only
      rw [hsucc, hb.fat_curr, show fatClusterFree = 0 from rfl]
      by_cases hf : im.fat curr = 0
      · have hcount : Nat.count (fun c => im.fat c = 0) (curr + 1) =
            Nat.count (fun c => im.fat c = 0) curr + 1 := by rw [Nat.count_succ, if_pos hf]
        have hcurr := inTable_of_fat_zero h₀ hf
        rw [if_pos hf]
        rcases hb.path with ⟨rfl, rfl, rfl⟩ | ⟨l', hl, hp⟩
        · have hni : clusterIsValid fatClusterInvalid ≠ true := by decide
          simp only [if_neg hni]
          rw [if_neg (by decide)]
          obtain ⟨v', start', im', l', hr, h', hfresh, hlen⟩ :=
            ih (cnt - 1) (hb.first hf) h₁ (by rw [List.length_singleton]; omega) (by omega)
              (by omega) (by omega)
          refine ⟨v', start', im', l', hr, h', hfresh, ?_⟩
          rw [hlen, List.length_singleton, List.length_nil]
          omega
        · have hpre : InTable g pre := hmem pre (by simp [hl])
          have hstart : InTable g start := hmem start (hp.start_mem (by simp [hl]))
          obtain ⟨v₂, err, hset, h₂, herr, -⟩ :=
            clusterSetNext_shows hw hg h₁ pre (x := curr) (by have := hcurr.lt; omega)
          have hok : ¬err < 0 := by simp [herr, hpre.valid]
          rw [if_pos hpre.valid, hset]
          dsimp only
          rw [if_neg hok, if_pos hstart.valid]
          obtain ⟨v', start', im', l'', hr, h', hfresh, hlen⟩ :=
            ih (cnt - 1) (hb.more hf hl hp hpre) h₂
              (by rw [List.length_append, List.length_singleton]; omega) (by omega) (by omega)
              (by omega)
          refine ⟨v', start', im', l'', hr, h', hfresh, ?_⟩
          rw [hlen, List.length_append, List.length_singleton]
          omega
      · have hcount : Nat.count (fun c => im.fat c = 0) (curr + 1) =
            Nat.count (fun c => im.fat c = 0) curr := by
          rw [Nat.count_succ, if_neg hf, Nat.add_zero]
        rw [if_neg hf]
        exact ih cnt hb.skip h₁ hpos (by omega) (by omega) (by omega)
    · rw [if_neg hgo]
      have hz : cnt = 0 := by
        by_contra hne
        have hge : g.cTotal ≤ curr := Nat.le_of_not_lt fun hlt => hgo ⟨hne, hlt⟩
        have hmono : freeCount g im ≤ Nat.count (fun c => im.fat c = 0) curr :=
          Nat.count_monotone _ hge
        omega
      subst hz
      rcases hb.path with ⟨rfl, -, -⟩ | ⟨l', hl, hp⟩
      · exact absurd hpos (by simp)
      · have hpre : InTable g pre := hmem pre (by simp [hl])
        obtain ⟨v₁, err, hset, h₁, -, herr⟩ :=
          clusterSetNext_shows hw hg h pre (x := fatClusterInvalid) (by decide)
        refine ⟨v₁, start, _, l, ?_, h₁, hb.fresh hl hp hpre, rfl⟩
        rw [clusterAllocEnd, if_pos rfl, hset]
        exact if_pos (herr hpre)

/-- With enough free clusters `cluster_alloc_free` returns a new chain of
`cnt` clusters. -/
theorem clusterAllocFree_path (hw : Works dev) (hg : g.Ok) (h : Shows g v im) {fuel cnt : Nat}
    (hf : 65536 < fuel) (hpos : 0 < cnt) (hcnt : cnt ≤ freeCount g im) :
    ∃ v' start im' l, clusterAllocFree dev g fuel v cnt = some (v', start) ∧
      Shows g v' im' ∧ Fresh im im' start l ∧ l.length = cnt := by
  have hlow : ∀ c < 2, ¬im.fat c = 0 := fun c hc hz =>
    Nat.not_le_of_lt hc (inTable_of_fat_zero h hz).two_le
  have hcount : Nat.count (fun c => im.fat c = 0) 2 = 0 := by
    rw [Nat.count_succ, Nat.count_succ, Nat.count_zero, if_neg (hlow 0 (by decide)),
      if_neg (hlow 1 (by decide))]
  obtain ⟨v', start, im', l, hr, h', hfresh, hlen⟩ :=
    clusterAllocLoop_path hw hg h fuel fuel cnt (Building.init im) h
      (by simpa using hpos) (by omega) (by decide) (by omega)
  exact ⟨v', start, im', l, hr, h', hfresh, by simpa using hlen⟩

end AllocPath

end Wjos
