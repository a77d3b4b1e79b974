/-
Wjos.Fs.Fatfs.Overlay — what `fatfs_write` does with the space it asks for.

A write asks for clusters twice: `expand_file` before the loop, for what lies
behind the current cluster, and `move_file_pos` when the loop has filled the
last one. The lemmas go by the place of a request. `expandFile_short` and
`expandFile_unlinked` are its failures: not enough clusters are free, and
nothing changes; or there is no current cluster to link behind, and those that
were allocated stay allocated. `fatfsWriteLoop_fill` is the loop over a chain
of clusters that hold the request (`Filled`): the bytes go where
`storeBlocks` puts them, and at the end of the last cluster one more is linked or
the position stays behind.
-/
import Wjos.Fs.Fatfs.Alloc
import Wjos.Fs.Fatfs.Contents

namespace Wjos

open Lib

/-! ## Requests that fail -/

section Short

variable {dev : Dev} {g : Fat} {v : Volume} {im : Image} {fuel cnt : Nat} {f : File}

/-- The volumes with the directory and the data of `im`. -/
theorem kept_simulates (hw : Works dev) (hg : g.Ok) (im : Image) :
    Simulates dev g (fun v im' => Shows g v im' ∧ im'.dir = im.dir ∧ im'.data = im.data)
      Image.fat (Image.setNext g) where
  get := fun h hc => by
    obtain ⟨v', hget, h'⟩ := (shows_simulates hw hg).get h.1 hc
    exact ⟨v', hget, h', h.2⟩
  set := fun h hc hx => by
    obtain ⟨v', hset, h'⟩ := (shows_simulates hw hg).set h.1 hc hx
    exact ⟨v', hset, h', h.2⟩
  fat_upd := (shows_simulates hw hg).fat_upd

/-- On a table of fewer than 65536 entries `cluster_alloc_free` ends. -/
theorem clusterAllocFree_ends (hw : Works dev) (hg : g.Ok) (ht : g.cTotal ≤ 65535)
    (h : Shows g v im) (hfuel : 65536 < fuel) (cnt : Nat) :
    ∃ v' r, clusterAllocFree dev g fuel v cnt = some (v', r) := by
  have hsim := shows_simulates hw hg
  obtain ⟨s, hscan⟩ :=
    @allocScan_ends dev g ht fuel v fatClusterInvalid fatClusterInvalid 2 cnt (by omega)
  obtain ⟨im₁, l, hb, h₁, herr, -⟩ :=
    allocScan_built hsim ht fuel (ChainBuilt.init g im.fat) (by simp) h hscan
  rw [clusterAllocFree, clusterAllocLoop_eq, hscan, Option.bind_some, allocAfter,
    if_neg (by simp [herr])]
  have hfailed : ∀ {w : Volume} {im' : Image}, Shows g w im' →
      ∃ v' r, clusterAllocFailed dev g fuel w s.start = some (v', r) := by
    intro w im' hsh
    obtain ⟨v', -, hfree, -⟩ := clusterFreeChain_total hw hg hsh hfuel s.start
    exact ⟨v', _, by rw [clusterAllocFailed, hfree, Option.map_some]⟩
  unfold clusterAllocEnd
  split
  · obtain ⟨v₁, err, hset, h₂, -⟩ :=
      clusterSetNext_shows hw hg h₁ s.pre (x := fatClusterInvalid) (by decide)
    rw [hset]
    dsimp only
    split
    · exact ⟨_, _, rfl⟩
    · exact hfailed h₂
  · exact hfailed h₁

/-- When it cannot have what it is asked for it fails, and nothing has
changed. -/
theorem clusterAllocFree_short (hw : Works dev) (hg : g.Ok) (h : Shows g v im)
    (hfuel : 65536 < fuel)
    (hcnt : cnt = 0 ∨ freeCount g im < cnt ∧ g.cTotal ≤ 65535) :
    ∃ v', clusterAllocFree dev g fuel v cnt = some (v', fatClusterInvalid) ∧ Shows g v' im := by
  rcases hcnt with rfl | ⟨hlt, ht⟩
  · refine ⟨v, ?_, h⟩
    obtain ⟨n, rfl⟩ : ∃ n, fuel = n + 1 := ⟨fuel - 1, by omega⟩
    have hni : clusterIsValid fatClusterInvalid = false := by decide
    rw [clusterAllocFree, clusterAllocLoop, if_neg (by simp), clusterAllocEnd, if_pos rfl,
      clusterSetNext_of_not_valid hni]
    dsimp only
    rw [if_neg (by decide), clusterAllocFailed, clusterFreeChain_of_not_valid hni]
    rfl
  · obtain ⟨v', r, hr⟩ := clusterAllocFree_ends hw hg ht h hfuel cnt
    obtain ⟨im', ⟨h', hdir, hdata⟩, hor⟩ :=
      clusterAllocFree_built (kept_simulates hw hg im) ht ⟨h, rfl, rfl⟩ hr
    rcases hor with ⟨l, hlen, hne, hfresh⟩ | ⟨rfl, hfat⟩
    · -- a new chain is no longer than the number of free clusters
      have hf : Fresh im im' r l :=
        ⟨hdir, hdata, fun c hc => (hfresh.free c hc).2, hfresh.other, hfresh.nodup, hfresh.path⟩
      have hcount := hf.freeCount fun c hc => (hfresh.free c hc).1
      omega
    · obtain rfl : im' = im := by
        cases im'
        cases im
        simp_all
      exact ⟨v', hr, h'⟩

theorem expandFile_short (hw : Works dev) (hg : g.Ok) (h : Shows g v im) (hfuel : 65536 < fuel)
    {incr : Int} (hcnt : expandCnt g f.size incr = some cnt)
    (hshort : cnt = 0 ∨ freeCount g im < cnt ∧ g.cTotal ≤ 65535) :
    ∃ v', expandFile dev g fuel v f incr = some (v', f, -1) ∧ Shows g v' im := by
  obtain ⟨v', halloc, h'⟩ := clusterAllocFree_short hw hg h hfuel hshort
  refine ⟨v', ?_, h'⟩
  unfold expandFile
  rw [hcnt]
  dsimp only
  rw [halloc, Option.map_some]
  dsimp only
  rw [if_pos (by decide)]

/-- Behind a current cluster that is not valid nothing is linked: the new
clusters belong to no chain. -/
theorem expandFile_unlinked (hw : Works dev) (hg : g.Ok) (h : Shows g v im)
    (hfuel : 65536 < fuel) (hs : clusterIsValid (clusterT f.sblk) = true)
    (hc : clusterIsValid (clusterT f.cblk) = false) {incr : Int}
    (hcnt : expandCnt g f.size incr = some cnt) (hpos : 0 < cnt) (hfree : cnt ≤ freeCount g im) :
    ∃ v' im', expandFile dev g fuel v f incr = some (v', f, -1) ∧ Shows g v' im' ∧
      im'.fat ≠ im.fat := by
  obtain ⟨v₁, s, im₁, m, halloc, h₁, hfresh, hlen⟩ :=
    clusterAllocFree_path hw hg h hfuel hpos hfree
  have hm := hfresh.inTable h
  have hsm := hfresh.path.start_mem (List.ne_nil_of_length_pos (hlen ▸ hpos))
  refine ⟨v₁, im₁, ?_, h₁, fun he => ?_⟩
  · unfold expandFile
    rw [hcnt]
    dsimp only
    rw [halloc, Option.map_some]
    dsimp only
    rw [if_neg (by simp [(hm s hsm).valid]), if_neg (by simp [hs]), clusterSetNext_of_not_valid hc]
    rfl
  · have hused := fat_ne_zero hfresh.path hm s hsm
    rw [he] at hused
    exact hused (hfresh.free s hsm)

/-- A move that cannot have the next cluster does not move. -/
theorem moveFilePos_refused (hw : Works dev) (hg : g.Ok) (h : Shows g v im) (fuel : Nat) {n : Nat}
    (hn : f.pos % g.clusterByteSize + n = g.clusterByteSize) (hc : f.cblk < 65536)
    (hnext : im.fat f.cblk = fatClusterInvalid) :
    ∃ v₁, Shows g v₁ im ∧ ∀ v₂, expandFile dev g fuel v₁ f g.clusterByteSize = some (v₂, f, -1) →
      moveFilePos dev g fuel v f n true = some (v₂, f, -1) := by
  have hq := hg.clusterByteSize_le
  obtain ⟨v₁, hget, h₁⟩ := clusterGetNext_shows hw hg h f.cblk
  refine ⟨v₁, h₁, fun v₂ hr => ?_⟩
  unfold moveFilePos
  dsimp only
  rw [u32_add (by omega), if_pos (Nat.le_of_eq hn.symm), clusterT_of_lt hc, hget]
  dsimp only
  rw [if_pos ⟨hnext, rfl⟩, hr, Option.map_some]
  rfl

end Short

/-! ## Rounds of the loop -/

section Rounds

variable {dev : Dev} {g : Fat} {fuel : Nat} {v : Volume} {im : Image} {f : File}
  (buf : Nat → UInt8) {total nbytes : Nat}

theorem fatfsWriteLoop_done (dev : Dev) (g : Fat) (fuel : Nat) (buf : Nat → UInt8) (n : Nat)
    (v : Volume) (f : File) (total : Nat) :
    fatfsWriteLoop dev g fuel buf n v f total 0 = some (v, f, total) := by
  cases n <;> simp [fatfsWriteLoop]

/-- A round stores what lies in the current cluster, and the position moves behind
it. -/
theorem fatfsWriteLoop_round (hw : Works dev) (hg : g.Ok) (h : Shows g v im) (hc₁ : 2 ≤ f.cblk)
    (hc₂ : f.cblk < 65536) (hpos : 0 < nbytes) (hn : nbytes < 2147483648) {w : Nat}
    (hpart : min nbytes (g.clusterByteSize - f.pos % g.clusterByteSize) = w)
    (hs : f.size + w < 4294967296) (fuel n total : Nat) :
    ∃ v₁, Shows g v₁ (im.setData f.cblk (f.pos % g.clusterByteSize) w fun i => buf (total + i)) ∧
      fatfsWriteLoop dev g fuel buf (n + 1) v f total nbytes =
        (moveFilePos dev g fuel v₁ { f with size := f.size + w } w true).bind
          fun (v, file, err) =>
            if err < 0 then some (v, file, total + w)
            else fatfsWriteLoop dev g fuel buf n v file (total + w) (nbytes - w) := by
  obtain ⟨v₁, err, hwc, he, h₁⟩ := writeCluster_shows hw hg h hc₁ hc₂ hn total buf
  rw [hpart] at hwc h₁
  refine ⟨v₁, h₁, ?_⟩
  rw [fatfsWriteLoop, if_pos hpos, hwc]
  dsimp only
  rw [if_neg (Int.not_lt.mpr he), u32_add hs]

/-- The last round, inside the current cluster. -/
theorem fatfsWriteLoop_stay (hw : Works dev) (hg : g.Ok) (h : Shows g v im) (hc₁ : 2 ≤ f.cblk)
    (hc₂ : f.cblk < 65536) (hpos : 0 < nbytes)
    (hin : f.pos % g.clusterByteSize + nbytes < g.clusterByteSize)
    (hp : f.pos + nbytes < 4294967296) (hs : f.size + nbytes < 4294967296) (fuel n total : Nat) :
    ∃ v', fatfsWriteLoop dev g fuel buf (n + 1) v f total nbytes =
        some (v', { f with size := f.size + nbytes, pos := f.pos + nbytes }, total + nbytes) ∧
      Shows g v' (im.setData f.cblk (f.pos % g.clusterByteSize) nbytes
        fun i => buf (total + i)) := by
  have hq := hg.clusterByteSize_le
  obtain ⟨v₁, h₁, hround⟩ := fatfsWriteLoop_round buf hw hg h hc₁ hc₂ hpos (by omega)
    (Nat.min_eq_left (by omega)) hs fuel n total
  refine ⟨v₁, ?_, h₁⟩
  rw [hround, moveFilePos_stay (f := { f with size := f.size + nbytes }) fuel true hg hin hp,
    Option.bind_some]
  dsimp only
  rw [if_neg (Int.lt_irrefl 0), Nat.sub_self, fatfsWriteLoop_done]

/-- A round that goes on to the next cluster, which is there. -/
theorem fatfsWriteLoop_next (hw : Works dev) (hg : g.Ok) (h : Shows g v im)
    (hb : InTable g f.cblk) (hn : nbytes < 2147483648) {w : Nat}
    (hend : f.pos % g.clusterByteSize + w = g.clusterByteSize) (hle : w ≤ nbytes)
    (hnext : im.fat f.cblk ≠ fatClusterInvalid) (hp : f.pos + w < 4294967296)
    (hs : f.size + w < 4294967296) (fuel n total : Nat) :
    ∃ v₁, Shows g v₁ (im.setData f.cblk (f.pos % g.clusterByteSize) w fun i => buf (total + i)) ∧
      fatfsWriteLoop dev g fuel buf (n + 1) v f total nbytes =
        fatfsWriteLoop dev g fuel buf n v₁
          { f with size := f.size + w, pos := f.pos + w, cblk := im.fat f.cblk }
          (total + w) (nbytes - w) := by
  have hmod := Nat.mod_lt f.pos hg.clusterByteSize_pos
  have hlt := Nat.lt_trans hb.lt (by decide : 0xFFF8 < 65536)
  obtain ⟨v₁, h₁, hround⟩ := fatfsWriteLoop_round buf hw hg h hb.two_le hlt (by omega) hn
    (show min nbytes (g.clusterByteSize - f.pos % g.clusterByteSize) = w by omega) hs fuel n total
  obtain ⟨v₂, hmv, h₂⟩ := moveFilePos_next (f := { f with size := f.size + w }) fuel true hw hg h₁
    hend hp hlt fun hh => hnext hh.1
  refine ⟨v₂, h₂, ?_⟩
  rw [hround, hmv, Option.bind_some]
  dsimp only
  rw [if_neg (Int.lt_irrefl 0), setData_fat]

/-- The last round when it fills the last cluster: one more is linked. -/
theorem fatfsWriteLoop_grow (hw : Works dev) (hg : g.Ok) (hfuel : 65536 < fuel) (h : Shows g v im)
    (hs : clusterIsValid (clusterT f.sblk) = true) (hb : InTable g f.cblk)
    (hlast : im.fat f.cblk = fatClusterInvalid)
    (hend : f.pos % g.clusterByteSize + nbytes = g.clusterByteSize) (hsize : f.size = f.pos)
    (hlt : f.pos + nbytes < 1073741824) (hfree : 0 < freeCount g im) (n total : Nat) :
    ∃ v' im' c, fatfsWriteLoop dev g fuel buf (n + 1) v f total nbytes =
        some (v', { f with size := f.pos + nbytes, pos := f.pos + nbytes, cblk := c },
          total + nbytes) ∧
      Shows g v' im' ∧ InTable g c ∧
      Linked (im.setData f.cblk (f.pos % g.clusterByteSize) nbytes fun i => buf (total + i)) im'
        f.cblk [c] := by
  have hq := hg.clusterByteSize_pos
  have hmod := Nat.mod_lt f.pos hq
  have hc := Nat.lt_trans hb.lt (by decide : 0xFFF8 < 65536)
  obtain ⟨v₁, h₁, hround⟩ := fatfsWriteLoop_round buf hw hg h hb.two_le hc
    (show 0 < nbytes by omega) (by omega) (Nat.min_eq_left (by omega)) (by omega) fuel n total
  rw [hsize] at hround
  generalize hset : im.setData f.cblk (f.pos % g.clusterByteSize) nbytes (fun i => buf (total + i))
    = im₁ at h₁
  have hfat : im₁.fat = im.fat := by rw [← hset, setData_fat]
  have hcnt : freeCount g im₁ = freeCount g im := by rw [← hset]; rfl
  have hone := expandCnt_full hg (show 0 < f.pos + nbytes by omega) (add_mod_of_eq hend)
  obtain ⟨v₂, h₂, hmove⟩ := moveFilePos_expand (f := { f with size := f.pos + nbytes }) fuel hw hg
    h₁ hend (show f.pos + nbytes < 4294967296 by omega) hc (hfat ▸ hlast)
  obtain ⟨v₃, im₃, m, hexp, h₃, hlink, hm, hlen, -⟩ :=
    expandFile_links (f := { f with size := f.pos + nbytes }) hw hg hfuel h₂ hs hb
      (by rw [hfat, hlast]; decide) hone Nat.one_pos (by omega)
  obtain ⟨c, rfl⟩ := List.length_eq_one_iff.mp hlen
  obtain ⟨v', hmv, h'⟩ := hmove v₃ im₃ h₃ hexp
  have hnext : im₃.fat f.cblk = c := hlink.path.2.1
  refine ⟨v', im₃, c, ?_, h', hm c (by simp), hlink⟩
  rw [hround, hmv, Option.bind_some]
  dsimp only
  rw [if_neg (Int.lt_irrefl 0), Nat.sub_self, fatfsWriteLoop_done, hnext]

/-- When no cluster is free the bytes are stored, but the position stays at the
start of the round. -/
theorem fatfsWriteLoop_full (hw : Works dev) (hg : g.Ok) (hfuel : 65536 < fuel) (h : Shows g v im)
    (hb : InTable g f.cblk) (hlast : im.fat f.cblk = fatClusterInvalid)
    (hend : f.pos % g.clusterByteSize + nbytes = g.clusterByteSize) (hsize : f.size = f.pos)
    (hlt : f.pos + nbytes < 1073741824) (hfree : freeCount g im = 0) (ht : g.cTotal ≤ 65535)
    (n total : Nat) :
    ∃ v', fatfsWriteLoop dev g fuel buf (n + 1) v f total nbytes =
        some (v', { f with size := f.pos + nbytes }, total + nbytes) ∧
      Shows g v' (im.setData f.cblk (f.pos % g.clusterByteSize) nbytes
        fun i => buf (total + i)) := by
  have hmod := Nat.mod_lt f.pos hg.clusterByteSize_pos
  have hc := Nat.lt_trans hb.lt (by decide : 0xFFF8 < 65536)
  obtain ⟨v₁, h₁, hround⟩ := fatfsWriteLoop_round buf hw hg h hb.two_le hc
    (show 0 < nbytes by omega) (by omega) (Nat.min_eq_left (by omega)) (by omega) fuel n total
  rw [hsize] at hround
  have hone := expandCnt_full hg (show 0 < f.pos + nbytes by omega) (add_mod_of_eq hend)
  obtain ⟨v₂, h₂, hmove⟩ := moveFilePos_refused (f := { f with size := f.pos + nbytes })
    hw hg h₁ fuel hend hc hlast
  obtain ⟨v', hexp, h'⟩ := expandFile_short (f := { f with size := f.pos + nbytes }) hw hg h₂
    hfuel hone (.inr ⟨Nat.lt_of_le_of_lt (Nat.le_of_eq hfree) Nat.one_pos, ht⟩)
  refine ⟨v', ?_, h'⟩
  rw [hround, hmove v' hexp, Option.bind_some]
  dsimp only
  rw [if_pos (by decide)]

end Rounds

/-! ## The loop over a chain that holds the request -/

section Fill

variable {dev : Dev} {g : Fat} {fuel : Nat} {im im₁ im' : Image} {f f₁ f' : File} {b : Nat}
  {t : List Nat} {n w : Nat}

/-- How a write of `n` bytes at the end of a file, from its current cluster on in
the clusters `t`, leaves the table and the position: it ends inside `t`; it
fills `t` and the free cluster `c` is linked behind; or it fills `t` and no
cluster is free. -/
inductive Filled (g : Fat) (im im' : Image) (f f' : File) (t : List Nat) (n : Nat) : Prop
  | inside (hn : f.pos % g.clusterByteSize + n < t.length * g.clusterByteSize)
      (hfat : im'.fat = im.fat) (hpos : f'.pos = f.pos + n)
  | grown (c : Nat) (hn : f.pos % g.clusterByteSize + n = t.length * g.clusterByteSize)
      (hfree : im.fat c = 0) (hc : InTable g c)
      (hpath : Path im'.fat f.cblk (t ++ [c]) fatClusterInvalid)
      (hother : ∀ d, d ∉ t → d ≠ c → im'.fat d = im.fat d) (hpos : f'.pos = f.pos + n)
  | full (hn : f.pos % g.clusterByteSize + n = t.length * g.clusterByteSize)
      (hfree : freeCount g im = 0) (hfat : im'.fat = im.fat) (hpos : f'.pos ≠ f.pos + n)

theorem freeCount_congr (h : im'.fat = im.fat) : freeCount g im' = freeCount g im := by
  unfold freeCount
  rw [h]

/-- A round before that fills the current cluster and goes on to the first of
`t`. -/
theorem Filled.cons (h : Filled g im₁ im' f₁ f' (b :: t) (n - w)) (hfat₁ : im₁.fat = im.fat)
    (hpos₁ : f₁.pos = f.pos + w) (hcblk : f₁.cblk = b)
    (hend : f.pos % g.clusterByteSize + w = g.clusterByteSize) (hle : w ≤ n)
    (hnext : im.fat f.cblk = b) (hnd : f.cblk ∉ b :: t) (hb : b ≠ 0) :
    Filled g im im' f f' (f.cblk :: b :: t) n := by
  have hmod : f₁.pos % g.clusterByteSize = 0 := by rw [hpos₁, add_mod_of_eq hend]
  have hlen : (f.cblk :: b :: t).length * g.clusterByteSize =
      (b :: t).length * g.clusterByteSize + g.clusterByteSize := by
    rw [List.length_cons, Nat.succ_mul]
  cases h with
  | inside hn hfat hpos =>
    exact .inside (by omega) (hfat.trans hfat₁) (by omega)
  | grown c hn hfree hc hpath hother hpos =>
    rw [hfat₁] at hfree
    have hne : f.cblk ≠ c := fun he => hb (by rw [← hnext, he, hfree])
    refine .grown c (by omega) hfree hc ?_ (fun d hd hdc => ?_) (by omega)
    · refine ⟨rfl, ?_⟩
      rw [hother _ hnd hne, hfat₁, hnext, ← hcblk]
      exact hcblk ▸ hpath
    · rw [hother d (fun hm => hd (List.mem_cons_of_mem _ hm)) hdc, hfat₁]
  | full hn hfree hfat hpos =>
    exact .full (by omega) ((freeCount_congr hfat₁).symm.trans hfree) (hfat.trans hfat₁)
      (by omega)

/-- The loop at the end of a file, over the clusters `f.cblk :: t` that hold the
request. Only when it fills them does the mark behind them count. -/
theorem fatfsWriteLoop_fill (hw : Works dev) (hg : g.Ok) (hfuel : 65536 < fuel)
    (buf : Nat → UInt8) (t : List Nat) :
    ∀ {v : Volume} {im : Image} {f : File} {e : Nat} (n total nbytes : Nat), Shows g v im →
      Path im.fat f.cblk (f.cblk :: t) e → (f.cblk :: t).Nodup →
      (∀ c ∈ f.cblk :: t, InTable g c) → clusterIsValid (clusterT f.sblk) = true →
      f.size = f.pos → f.pos + nbytes < 1073741824 →
      f.pos % g.clusterByteSize + nbytes ≤ (f.cblk :: t).length * g.clusterByteSize →
      (f.pos % g.clusterByteSize + nbytes = (f.cblk :: t).length * g.clusterByteSize →
        e = fatClusterInvalid ∧ (freeCount g im = 0 → g.cTotal ≤ 65535)) →
      nbytes ≤ n →
      ∃ v' f' im', fatfsWriteLoop dev g fuel buf n v f total nbytes =
          some (v', f', total + nbytes) ∧ Shows g v' im' ∧
        im'.data = storeBlocks g.clusterByteSize (f.cblk :: t) (f.pos % g.clusterByteSize) nbytes
          (fun i => buf (total + i)) im.data ∧
        f'.size = f.pos + nbytes ∧ f'.sblk = f.sblk ∧
        Filled g im im' f f' (f.cblk :: t) nbytes := by
  have hq := hg.clusterByteSize_pos
  induction t with
  | nil =>
    intro v im f e n total nbytes h hp hnd hin hs hsize hlt hfits hmark hle
    have hb := hin f.cblk (by simp)
    have hb₂ := Nat.lt_trans hb.lt (by decide : 0xFFF8 < 65536)
    have hmod := Nat.mod_lt f.pos hq
    simp only [List.length_singleton, Nat.one_mul] at hfits hmark
    rw [storeBlocks_single [] hfits]
    rcases Nat.eq_zero_or_pos nbytes with rfl | hpos
    · refine ⟨v, f, im, fatfsWriteLoop_done .., h, ?_, hsize, rfl, .inside ?_ rfl rfl⟩
      · rw [← storeBlocks_single [] hfits, storeBlocks_zero]
      · simpa using hmod
    obtain ⟨n, rfl⟩ : ∃ k, n = k + 1 := ⟨n - 1, by omega⟩
    rcases Nat.lt_or_eq_of_le hfits with hstay | hend
    · obtain ⟨v', hr, h'⟩ := fatfsWriteLoop_stay buf hw hg h hb.two_le hb₂ hpos hstay
        (by omega) (by omega) fuel n total
      exact ⟨v', _, _, hr, h', rfl, by rw [hsize], rfl, .inside (by simpa using hstay) rfl rfl⟩
    · obtain ⟨rfl, ht⟩ := hmark hend
      have hlast : im.fat f.cblk = fatClusterInvalid := hp.2
      rcases Nat.eq_zero_or_pos (freeCount g im) with hfree | hfree
      · obtain ⟨v', hr, h'⟩ := fatfsWriteLoop_full buf hw hg hfuel h hb hlast hend hsize
          hlt hfree (ht hfree) n total
        refine ⟨v', _, _, hr, h', rfl, rfl, rfl, .full (by simpa using hend) hfree rfl ?_⟩
        dsimp only
        omega
      · obtain ⟨v', im', c, hr, h', hc, hlink⟩ := fatfsWriteLoop_grow buf hw hg hfuel h hs
          hb hlast hend hsize hlt hfree n total
        refine ⟨v', _, im', hr, h', hlink.data, rfl, rfl,
          .grown c (by simpa using hend) (hlink.free c (by simp)) hc hlink.path
            (fun d hd hdc => hlink.other d ?_) rfl⟩
        simp only [List.mem_cons, List.not_mem_nil, or_false] at hd ⊢
        exact not_or.mpr ⟨hd, hdc⟩
  | cons b t ih =>
    intro v im f e n total nbytes h hp hnd hin hs hsize hlt hfits hmark hle
    have hb := hin f.cblk (by simp)
    have hb₂ := Nat.lt_trans hb.lt (by decide : 0xFFF8 < 65536)
    have hmod := Nat.mod_lt f.pos hq
    have hlen : (f.cblk :: b :: t).length * g.clusterByteSize =
        (b :: t).length * g.clusterByteSize + g.clusterByteSize := by
      rw [List.length_cons, Nat.succ_mul]
    rcases Nat.eq_zero_or_pos nbytes with rfl | hpos
    · refine ⟨v, f, im, fatfsWriteLoop_done .., h, (storeBlocks_zero ..).symm, hsize, rfl,
        .inside ?_ rfl rfl⟩
      omega
    obtain ⟨n, rfl⟩ : ∃ k, n = k + 1 := ⟨n - 1, by omega⟩
    by_cases hstay : f.pos % g.clusterByteSize + nbytes < g.clusterByteSize
    · obtain ⟨v', hr, h'⟩ := fatfsWriteLoop_stay buf hw hg h hb.two_le hb₂ hpos hstay
        (by omega) (by omega) fuel n total
      refine ⟨v', _, _, hr, h', (storeBlocks_single (b :: t) (Nat.le_of_lt hstay)).symm,
        by rw [hsize], rfl, .inside ?_ rfl rfl⟩
      omega
    · obtain ⟨w, hend⟩ := Nat.exists_eq_add_of_le (Nat.le_of_lt hmod)
      obtain ⟨-, hp₁⟩ := hp
      have hnext : im.fat f.cblk = b := hp₁.1
      have hbt := hin b (by simp)
      obtain ⟨hnot, hnd₁⟩ := List.nodup_cons.mp hnd
      have hvalid : im.fat f.cblk ≠ fatClusterInvalid := by
        rw [hnext]
        exact Nat.ne_of_lt hbt.lt
      obtain ⟨v₁, h₁, hround⟩ := fatfsWriteLoop_next buf hw hg h hb
        (show nbytes < 2147483648 by omega) hend.symm (by omega)
        hvalid (by omega) (by omega) fuel n total
      rw [hnext] at hround hp₁
      have hmod₁ : (f.pos + w) % g.clusterByteSize = 0 := add_mod_of_eq hend.symm
      obtain ⟨v', f', im', hr, h', hdata, hsz, hsb, hfill⟩ :=
        ih (f := { f with size := f.size + w, pos := f.pos + w, cblk := b }) n (total + w)
          (nbytes - w) h₁ hp₁ hnd₁ (fun c hc => hin c (List.mem_cons_of_mem _ hc)) hs
          (by rw [hsize]) (by dsimp only; omega) (by dsimp only; omega)
          (by
            intro hend₁
            dsimp only at hend₁
            exact hmark (by omega))
          (by omega)
      have htot : total + w + (nbytes - w) = total + nbytes := by omega
      refine ⟨v', f', im', ?_, h', ?_, ?_, hsb, ?_⟩
      · rw [hround, hr, htot]
      · have hw' : g.clusterByteSize - f.pos % g.clusterByteSize = w := by omega
        simp only [hmod₁, Nat.add_assoc] at hdata
        rw [hdata, storeBlocks_cons (b :: t), hw', Nat.min_eq_right (by omega : w ≤ nbytes)]
        rfl
      · rw [hsz]
        dsimp only
        omega
      · have hb0 : b ≠ 0 := by have := hbt.two_le; omega
        exact hfill.cons rfl rfl rfl hend.symm (by omega) hnext hnot hb0

end Fill

end Wjos
