/-
Wjos.Fs.Fatfs.SeekRead — runs of `fatfs_seek` and `fatfs_read` on one file.

Byte `k` of a file is in the cluster of number `k / cluster_byte_size` behind
`sblk`. `Standing` says that a file stands within its size, in the cluster of
its position; from there `fatfs_read` returns what is left of the request before
the end of the file (`fatfsRead_standing`). Reads keep this. A seek keeps it when
it goes no further than the size and when its walk from the current cluster ends
where the one from `sblk` does (`StaysInside`), and `reads_inside` follows for
runs of such calls. Nothing is assumed of the chain behind the last byte.
-/
import Wjos.Fs.Fatfs.Contents
import Wjos.Fs.Fatfs.Seek
import Wjos.Lib.Run

namespace Wjos

open Lib

/-- The byte at `k` of the file with the first cluster `sblk`. -/
def fileByte (g : Fat) (im : Image) (sblk k : Nat) : UInt8 :=
  im.data (im.fat^[k / g.clusterByteSize] sblk) (k % g.clusterByteSize)

/-- The chain of the file holds the clusters of its size. -/
def HoldsFile (g : Fat) (im : Image) (f : File) : Prop :=
  HoldsClusters im.fat f.sblk (sizeClusters g f.size)

instance (g : Fat) (im : Image) (f : File) : Decidable (HoldsFile g im f) := by
  unfold HoldsFile
  infer_instance

/-- The file stands within its size, in the cluster of its position. -/
structure Standing (g : Fat) (im : Image) (f : File) : Prop where
  holds : HoldsFile g im f
  size : f.size < 4294967296
  pos : f.pos ≤ f.size
  cblk : 0 < f.size → f.cblk = im.fat^[f.pos / g.clusterByteSize] f.sblk

section Clusters

variable {g : Fat} {im : Image} {f : File} {k : Nat}

/-- A byte before the end is in one of the clusters of the file. -/
theorem div_lt_sizeClusters (hq : 0 < g.clusterByteSize) {size : Nat} (hk : k < size) :
    k / g.clusterByteSize < sizeClusters g size := by
  refine (Nat.le_div_iff_mul_le hq).mpr ?_
  have hle := Nat.div_mul_le_self k g.clusterByteSize
  rw [Nat.succ_mul]
  omega

theorem HoldsFile.valid (h : HoldsFile g im f) (hq : 0 < g.clusterByteSize) (hk : k < f.size) :
    clusterIsValid (im.fat^[k / g.clusterByteSize] f.sblk) = true :=
  h _ (div_lt_sizeClusters hq hk)

/-- The first cluster of a file with bytes. -/
theorem HoldsFile.sblk_valid (h : HoldsFile g im f) (hq : 0 < g.clusterByteSize)
    (hs : 0 < f.size) : clusterIsValid f.sblk = true := by
  have hfst := h.valid hq hs
  rwa [Nat.zero_div] at hfst

/-- The byte, when the clusters of the file are listed. -/
theorem fileByte_of_path {sblk e d : Nat} {l : List Nat} (hp : Path im.fat sblk l e)
    (hd : l[k / g.clusterByteSize]? = some d) :
    fileByte g im sblk k = im.data d (k % g.clusterByteSize) := by
  obtain ⟨hlt, -⟩ := List.getElem?_eq_some_iff.mp hd
  rw [fileByte, hp.iterate_eq (Nat.le_of_lt hlt), hd, Option.getD_some]

/-- Bytes in one cluster follow each other. -/
theorem fileByte_add {sblk i : Nat} (hi : k % g.clusterByteSize + i < g.clusterByteSize) :
    fileByte g im sblk (k + i) =
      im.data (im.fat^[k / g.clusterByteSize] sblk) (k % g.clusterByteSize + i) := by
  rw [fileByte, add_div_of_lt hi, add_mod_of_lt hi]

end Clusters

/-! ## Reading -/

section Read

variable {dev : Dev} {g : Fat} {v v' : Volume} {im : Image} {f : File} {buf buf' : Nat → UInt8}
  {total nbytes w : Nat} {err : Int}

/-- A transfer stores nothing behind the bytes it counts. -/
theorem readCluster_beyond (hw : Works dev) (hg : g.Ok)
    (hr : readCluster dev g v f buf total nbytes = (v', buf', err, w)) {a : Nat}
    (ha : total + w ≤ a) : buf' a = buf a := by
  have hlen : g.secPerCluster * sectorSize = g.clusterByteSize := hg.clusterByteSize.symm
  unfold readCluster at hr
  dsimp only at hr
  split at hr
  · simp only [devRead, hw v.calls, Int.toNat_natCast, Nat.min_self, hlen, Prod.mk.injEq] at hr
    obtain ⟨-, rfl, -, rfl⟩ := hr
    dsimp only
    split
    · rw [copyTo_of_ge (by omega)]
      congr 1
      omega
    · rfl
  · split at hr
    · cases hr
      rfl
    · cases hr
      exact copyTo_of_ge ha

/-- The move behind a transfer inside the file. -/
theorem moveFilePos_standing (hw : Works dev) (hg : g.Ok) (fuel : Nat) (h : Shows g v im)
    (hst : Standing g im f) (hpos : 0 < w) (hfit : f.pos + w ≤ f.size)
    (hq : f.pos % g.clusterByteSize + w ≤ g.clusterByteSize) :
    ∃ v' f', moveFilePos dev g fuel v f w false = some (v', f', 0) ∧ Shows g v' im ∧
      Standing g im f' ∧ f' = { f with pos := f.pos + w, cblk := f'.cblk } := by
  have hlt := hst.size
  have hcur := hst.cblk (by omega)
  rcases Nat.lt_or_eq_of_le hq with hstay | hend
  · refine ⟨v, _, moveFilePos_stay fuel false hg hstay (by omega), h,
      ⟨hst.holds, hlt, hfit, fun _ => ?_⟩, rfl⟩
    dsimp only
    rw [add_div_of_lt hstay, hcur]
  · have hvalid := hst.holds.valid hg.clusterByteSize_pos (show f.pos < f.size by omega)
    rw [← hcur, clusterIsValid_iff] at hvalid
    obtain ⟨v', hmv, h'⟩ := moveFilePos_next fuel false hw hg h hend (by omega) (by omega)
      (by simp)
    refine ⟨v', _, hmv, h', ⟨hst.holds, hlt, hfit, fun _ => ?_⟩, rfl⟩
    dsimp only
    rw [add_div_of_eq hg.clusterByteSize_pos hend, Function.iterate_succ_apply', hcur]

theorem fatfsReadLoop_standing (hw : Works dev) (hg : g.Ok) (fuel n : Nat) :
    ∀ {v : Volume} {f : File} (buf : Nat → UInt8) (total nbytes : Nat), Shows g v im →
      Standing g im f → f.pos + nbytes ≤ f.size → nbytes < 2147483648 → nbytes ≤ n →
      ∃ v' f' buf', fatfsReadLoop dev g fuel n v f buf total nbytes =
          some (v', f', buf', total + nbytes) ∧ Shows g v' im ∧ Standing g im f' ∧
        f' = { f with pos := f.pos + nbytes, cblk := f'.cblk } ∧
        (∀ a, a < total ∨ total + nbytes ≤ a → buf' a = buf a) ∧
        ∀ i < nbytes, buf' (total + i) = fileByte g im f.sblk (f.pos + i) := by
  induction n with
  | zero =>
    intro v f buf total nbytes h hst _ _ hle
    obtain rfl : nbytes = 0 := Nat.le_zero.mp hle
    rw [fatfsReadLoop, if_neg (Nat.lt_irrefl 0)]
    exact ⟨v, f, buf, rfl, h, hst, rfl, fun _ _ => rfl, fun i hi => absurd hi (Nat.not_lt_zero i)⟩
  | succ n ih =>
    intro v f buf total nbytes h hst hfit hlt hle
    rw [fatfsReadLoop]
    rcases Nat.eq_zero_or_pos nbytes with rfl | hpos
    · rw [if_neg (Nat.lt_irrefl 0)]
      exact ⟨v, f, buf, rfl, h, hst, rfl, fun _ _ => rfl,
        fun i hi => absurd hi (Nat.not_lt_zero i)⟩
    · have hq := hg.clusterByteSize_pos
      have hmod := Nat.mod_lt f.pos hq
      have hcur := hst.cblk (by omega)
      have hvalid := hst.holds.valid hq (show f.pos < f.size by omega)
      rw [← hcur, clusterIsValid_iff] at hvalid
      obtain ⟨v₁, buf₁, e, hrc, he, h₁, hold, hnew⟩ :=
        readCluster_shows hw hg h hvalid.1 (by omega) hlt total buf
      have hbeyond := fun a ha => readCluster_beyond hw hg hrc (a := a) ha
      generalize hpart : min nbytes (g.clusterByteSize - f.pos % g.clusterByteSize) = w
        at hrc hnew hbeyond
      obtain ⟨v₂, f₂, hmv, h₂, hst₂, hf₂⟩ := moveFilePos_standing hw hg fuel h₁ hst (w := w)
        (by omega) (by omega) (by omega)
      have hp₂ : f₂.pos = f.pos + w := by rw [hf₂]
      have hs₂ : f₂.size = f.size := by rw [hf₂]
      have hb₂ : f₂.sblk = f.sblk := by rw [hf₂]
      obtain ⟨v', f', buf', hloop, h', hst', hf', hold', hnew'⟩ :=
        ih buf₁ (total + w) (nbytes - w) h₂ hst₂ (by omega) (by omega) (by omega)
      have htot : total + w + (nbytes - w) = total + nbytes := by omega
      rw [if_pos hpos, hrc]
      dsimp only
      rw [if_neg (Int.not_lt.mpr he), hmv, Option.bind_some]
      dsimp only
      rw [if_neg (Int.lt_irrefl 0), hloop, htot]
      refine ⟨v', f', buf', rfl, h', hst', ?_, fun a ha => ?_, fun i hi => ?_⟩
      · have hsum : f.pos + w + (nbytes - w) = f.pos + nbytes := by omega
        rw [hf', hf₂]
        dsimp only
        rw [hsum]
      · rw [hold' a (by omega)]
        rcases ha with hlow | hhigh
        · exact hold a hlow
        · exact hbeyond a (by omega)
      · rcases Nat.lt_or_ge i w with hiw | hiw
        · rw [hold' _ (by omega), hnew i hiw, fileByte_add (by omega), hcur]
        · obtain ⟨j, rfl⟩ := Nat.exists_eq_add_of_le hiw
          rw [← Nat.add_assoc, hnew' j (by omega), hp₂, hb₂, Nat.add_assoc]

/-- What `fatfs_read` of `n` bytes has to return: no more than is left before the
end of the file, the bytes of the file and nothing behind them. -/
structure ReadsRight (g : Fat) (im : Image) (f : File) (buf buf' : Nat → UInt8) (n r : Nat) :
    Prop where
  count : r = min n (f.size - f.pos)
  bytes : ∀ i < r, buf' i = fileByte g im f.sblk (f.pos + i)
  beyond : ∀ a, r ≤ a → buf' a = buf a

/-- From within the file `fatfs_read` reads on up to its end. -/
theorem fatfsRead_standing (hw : Works dev) (hg : g.Ok) (fuel : Nat) (h : Shows g v im)
    (hst : Standing g im f) (buf : Nat → UInt8) {n : Nat} (hn : n < 2147483648)
    (hwrap : f.pos + n < 4294967296) :
    ∃ v' f' buf' r, fatfsRead dev g fuel v buf n f = some (v', f', buf', r) ∧ Shows g v' im ∧
      Standing g im f' ∧ f'.sblk = f.sblk ∧ f'.size = f.size ∧ f'.pos = f.pos + r ∧
      ReadsRight g im f buf buf' n r := by
  have hlt := hst.size
  have hp := hst.pos
  have hnb : (if u32 ((f.pos : Int) + (n : Nat)) > f.size then u32 ((f.size : Int) - f.pos)
      else n) = min n (f.size - f.pos) := by
    rw [u32_add hwrap, u32_sub hp hlt]
    split <;> omega
  obtain ⟨v', f', buf', hloop, h', hst', hf', hold, hnew⟩ :=
    fatfsReadLoop_standing hw hg fuel (min n (f.size - f.pos)) buf 0
      (min n (f.size - f.pos)) h hst (by omega) (by omega) (Nat.le_refl _)
  refine ⟨v', f', buf', _, ?_, h', hst', by rw [hf'], by rw [hf'], by rw [hf'], rfl,
    fun i hi => ?_, fun a ha => hold a (.inr (by omega))⟩
  · unfold fatfsRead
    dsimp only
    rw [hnb, hloop, Nat.zero_add]
  · rw [← hnew i hi, Nat.zero_add]

end Read

/-! ## Runs -/

inductive FileEvent where
  | fatfsSeek (offset : Nat)
  | fatfsRead (buf : Nat → UInt8) (size : Nat)

/-- One successful call on the file. -/
def fileStep (dev : Dev) (g : Fat) (fuel : Nat) (s : Volume × File) :
    FileEvent → Option (Volume × File)
  | .fatfsSeek offset =>
    (fatfsSeek dev g s.1 s.2 offset 0).bind fun (v, file, err) =>
      if err < 0 then none else some (v, file)
  | .fatfsRead buf size =>
    (fatfsRead dev g fuel s.1 buf size s.2).map fun (v, file, _) => (v, file)

/-- A seek goes to an offset within the size, where the walk from the current
cluster ends in the same cluster as the one from `sblk`; the position and the
length of a read add up to less than `2^32`. -/
def StaysInside (g : Fat) (s : Volume × File) : FileEvent → Prop
  | .fatfsSeek offset => offset ≤ s.2.size ∧
      (image g s.1.disk).fat^[offset / g.clusterByteSize] (clusterT s.2.cblk) =
        (image g s.1.disk).fat^[offset / g.clusterByteSize] (clusterT s.2.sblk)
  | .fatfsRead _ size => size < 2147483648 ∧ s.2.pos + size < 4294967296

instance (g : Fat) (s : Volume × File) (e : FileEvent) : Decidable (StaysInside g s e) := by
  unfold StaysInside
  cases e <;> infer_instance

section Runs

variable {dev : Dev} {g : Fat} {fuel : Nat} {im : Image} {s s' s₀ : Volume × File}
  {e : FileEvent} {es : List FileEvent}

/-- The volume holds `im`, and the file with this first cluster and size stands
within it. -/
structure OpenAt (g : Fat) (im : Image) (sblk size : Nat) (s : Volume × File) : Prop where
  vol : Shows g s.1 im
  standing : Standing g im s.2
  sblk : s.2.sblk = sblk
  size : s.2.size = size

/-- A step that meets the condition keeps the file within its size. -/
theorem fileStep_openAt (hw : Works dev) (hg : g.Ok) {sblk size : Nat}
    (h : OpenAt g im sblk size s) (hin : StaysInside g s e)
    (hs : fileStep dev g fuel s e = some s') : OpenAt g im sblk size s' := by
  obtain ⟨v, f⟩ := s
  have himage : image g v.disk = im := h.vol.image_eq
  have hst := h.standing
  cases e with
  | fatfsSeek offset =>
    obtain ⟨hle, hsame⟩ := hin
    have hlt := hst.size
    dsimp only at hle hsame hst hlt
    rw [himage] at hsame
    obtain ⟨v', h', hr⟩ := fatfsSeek_walks (follows_shows hw hg) hg.clusterByteSize_pos h.vol f
      (show offset < 4294967296 by omega)
    split at hr
    next =>
      rw [fileStep, hr, Option.bind_some] at hs
      obtain rfl := Option.some.inj hs
      refine ⟨h', ⟨hst.holds, hlt, hle, fun hpos => ?_⟩, h.sblk, h.size⟩
      have hv := hst.holds.sblk_valid hg.clusterByteSize_pos hpos
      rw [clusterIsValid_iff] at hv
      rw [clusterT_of_lt (c := f.sblk) (by omega)] at hsame
      exact hsame
    next =>
      rw [fileStep, hr, Option.bind_some] at hs
      exact absurd hs (by simp)
  | fatfsRead buf n =>
    obtain ⟨hn, hwrap⟩ := hin
    obtain ⟨v', f', buf', r, hr, h', hst', hsb, hsz, -⟩ :=
      fatfsRead_standing hw hg fuel h.vol hst buf hn hwrap
    rw [fileStep, hr, Option.map_some] at hs
    obtain rfl := Option.some.inj hs
    exact ⟨h', hst', hsb.trans h.sblk, hsz.trans h.size⟩

/-- A run of such steps keeps it. -/
theorem run_openAt (hw : Works dev) (hg : g.Ok) {sblk size : Nat} (h : OpenAt g im sblk size s₀)
    (hal : Along (fileStep dev g fuel) (StaysInside g) s₀ es)
    (hr : run (fileStep dev g fuel) s₀ es = some s) : OpenAt g im sblk size s :=
  run_invariant_along (fun _ _ _ hinv hin hs => fileStep_openAt hw hg hinv hin hs) h hal hr

/-- In a run of successful calls on a file that was just opened, whose seeks stay
inside it, `fatfs_read` never passes the end of the file and returns its bytes. -/
theorem reads_inside (hw : Works dev) (hg : g.Ok) {v : Volume} {f : File} (hc : Coherent g v)
    (hpos : f.pos = 0) (hcblk : f.cblk = f.sblk) (hsize : f.size < 4294967296)
    (hholds : HoldsFile g (image g v.disk) f)
    (hal : Along (fileStep dev g fuel) (StaysInside g) (v, f) es)
    (hr : run (fileStep dev g fuel) (v, f) es = some s) {buf : Nat → UInt8} {n : Nat}
    (hin : StaysInside g s (.fatfsRead buf n)) :
    s.2.pos ≤ f.size ∧ s.2.size = f.size ∧ s.2.sblk = f.sblk ∧
      ∃ v' f' buf' r, fatfsRead dev g fuel s.1 buf n s.2 = some (v', f', buf', r) ∧
        ReadsRight g (image g v.disk) s.2 buf buf' n r := by
  have hstart : OpenAt g (image g v.disk) f.sblk f.size (v, f) := by
    refine ⟨⟨rfl, hc⟩, ⟨hholds, hsize, by simp [hpos], fun _ => ?_⟩, rfl, rfl⟩
    rw [hpos, Nat.zero_div]
    exact hcblk
  have hend := run_openAt hw hg hstart hal hr
  obtain ⟨v', f', buf', r, hread, -, -, -, -, -, hright⟩ :=
    fatfsRead_standing hw hg fuel hend.vol hend.standing buf hin.1 hin.2
  exact ⟨hend.size ▸ hend.standing.pos, hend.size, hend.sblk, v', f', buf', r, hread, hright⟩

end Runs

theorem reads_inside_two :
    ∃ s, run (fileStep idealDev tinyFat 0) (twoClusterVol, twoClusterFile) [.fatfsSeek 512] =
        some s ∧ s.2.pos = 512 ∧
      ∃ v' f' buf' r, fatfsRead idealDev tinyFat 0 s.1 (fun _ => 0) 100 s.2 =
          some (v', f', buf', r) ∧
        ReadsRight tinyFat (image tinyFat twoClusterVol.disk) s.2 (fun _ => 0) buf' 100 r := by
  have hrun : (run (fileStep idealDev tinyFat 0) (twoClusterVol, twoClusterFile)
      [.fatfsSeek 512]).map (fun s => s.2.pos) = some 512 := by decide +kernel
  obtain ⟨s, hs, hp⟩ := Option.map_eq_some_iff.mp hrun
  have hin : StaysInside tinyFat s (.fatfsRead (fun _ => 0) 100) :=
    ⟨by decide, by rw [hp]; decide⟩
  obtain ⟨-, -, -, hread⟩ := reads_inside idealDev_works tinyFat_ok (coherent_uncached rfl) rfl rfl
    (by decide) (by decide +kernel) (by decide +kernel) hs hin
  exact ⟨s, hs, hp, hread⟩

/-- The last cluster of the file is read, then `fatfs_seek` goes back to 0: the
next byte read is the first one of the last cluster. -/
theorem read_after_seek_back :
    ∃ s, run (fileStep idealDev tinyFat 0) (twoClusterVol, twoClusterFile)
        [.fatfsRead (fun _ => 0) 600, .fatfsSeek 0] = some s ∧
      ∃ v' f' buf', fatfsRead idealDev tinyFat 0 s.1 (fun _ => 0) 1 s.2 =
          some (v', f', buf', 1) ∧
        ¬ReadsRight tinyFat (image tinyFat twoClusterVol.disk) s.2 (fun _ => 0) buf' 1 1 := by
  have hrun : ((run (fileStep idealDev tinyFat 0) (twoClusterVol, twoClusterFile)
      [.fatfsRead (fun _ => 0) 600, .fatfsSeek 0]).bind fun s =>
      (fatfsRead idealDev tinyFat 0 s.1 (fun _ => 0) 1 s.2).map fun r =>
        (s.2.pos, s.2.sblk, r.2.2.1 0, r.2.2.2)) = some (0, 2, 66, 1) := by decide +kernel
  obtain ⟨s, hs, hread⟩ := Option.bind_eq_some_iff.mp hrun
  obtain ⟨⟨v', f', buf', n⟩, hread, he⟩ := Option.map_eq_some_iff.mp hread
  obtain ⟨hpos, hsblk, hbyte, rfl⟩ : s.2.pos = 0 ∧ s.2.sblk = 2 ∧ buf' 0 = 66 ∧ n = 1 := by
    simpa using he
  refine ⟨s, hs, v', f', buf', hread, fun hright => ?_⟩
  have hfirst := hright.bytes 0 Nat.one_pos
  rw [hbyte, hpos, hsblk] at hfirst
  exact absurd hfirst (by decide +kernel)

end Wjos
