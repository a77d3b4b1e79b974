/-
Wjos.Fs.Fatfs.Seek — where `fatfs_seek` leaves a file.

The loop counts the position up from 0, but it walks from the current cluster:
`fatfsSeek_walks` says that it takes `offset / cluster_byte_size` steps from
there. `SeeksRight` is an absolute position, with the cluster counted from
`sblk`; `seek_right_iff` says for which files and offsets the two are the same,
and `seekMeets_chain` reads it off the chain of a file.

The loop only calls `cluster_get_next`. `Follows` is what that answers on the
volumes of a set.
-/
import Wjos.Fs.Fatfs.FreeChain

namespace Wjos

open Lib

/-! ## Following a table -/

/-- On the volumes of `R` the successor of a cluster is `next`, and asking for
it stays in `R`. -/
def Follows (dev : Dev) (g : Fat) (R : Volume → Prop) (next : Nat → Nat) : Prop :=
  ∀ v c, R v → ∃ v', clusterGetNext dev g v c = (v', next c) ∧ R v'

/-- What `cluster_get_next` answers for the first table on a disk. -/
def tableNext (g : Fat) (disk : Nat → UInt8) (c : Nat) : Nat :=
  if InTable g c then tableEntry g disk 0 c else fatClusterInvalid

theorem follows_tables {dev : Dev} {g : Fat} {v : Volume} (hw : Works dev) (hf : Fits g)
    (hwhole : WholeTable g) :
    Follows dev g (fun w => Tables g w (tableEntry g v.disk 0) (tableEntry g v.disk 1))
      (tableNext g v.disk) := by
  intro w c h
  by_cases hc : InTable g c
  · rw [tableNext, if_pos hc]
    exact clusterGetNext_tables hw hf h hc
  · refine ⟨w, ?_, h⟩
    rw [tableNext, if_neg hc]
    cases hv : clusterIsValid c with
    | false => exact clusterGetNext_of_not_valid hv
    | true => exact clusterGetNext_of_ge (hwhole c hv hc)

theorem follows_shows {dev : Dev} {g : Fat} {im : Image} (hw : Works dev) (hg : g.Ok) :
    Follows dev g (fun w => Shows g w im) im.fat :=
  fun _ c h => clusterGetNext_shows hw hg h c

/-! ## The loop -/

section Seek

variable {dev : Dev} {g : Fat} {R : Volume → Prop} {next : Nat → Nat} {v : Volume} {f : File}
  {offset : Nat}

/-- The first `n` clusters of the chain from `c` are valid. -/
abbrev HoldsClusters (next : Nat → Nat) (c n : Nat) : Prop :=
  Lib.Holds next (fun c => clusterIsValid c = true) c n

instance (next : Nat → Nat) (c n : Nat) : Decidable (HoldsClusters next c n) :=
  inferInstanceAs (Decidable (∀ i < n, clusterIsValid (next^[i] c) = true))

/-- From a cluster boundary the loop takes a step for each whole cluster, and
fails when it enters a cluster that is not valid. -/
theorem fatfsSeekLoop_walks (hfol : Follows dev g R next) (hq : 0 < g.clusterByteSize) (n : Nat) :
    ∀ {v : Volume} (cur currPos move : Nat), R v → currPos % g.clusterByteSize = 0 →
      currPos + move < 4294967296 → move ≤ n →
      ∃ v', R v' ∧ fatfsSeekLoop dev g n v cur currPos move =
        some (v', if HoldsClusters next (next cur) (move / g.clusterByteSize) then
          some (currPos + move, next^[move / g.clusterByteSize] cur) else none) := by
  have hdone : ∀ {v : Volume} {cur currPos : Nat}, R v →
      ∃ v', R v' ∧ some (v, some (currPos, cur)) =
        some (v', if HoldsClusters next (next cur) (0 / g.clusterByteSize) then
          some (currPos + 0, next^[0 / g.clusterByteSize] cur) else none) := by
    intro v cur currPos h
    have hnone : HoldsClusters next (next cur) 0 := holds_zero _ _ _
    refine ⟨v, h, ?_⟩
    rw [Nat.zero_div, if_pos hnone]
    rfl
  induction n with
  | zero =>
    intro v cur currPos move h _ _ hle
    obtain rfl : move = 0 := Nat.le_zero.mp hle
    rw [fatfsSeekLoop, if_neg (by simp)]
    exact hdone h
  | succ n ih =>
    intro v cur currPos move h hpos hlt hle
    rw [fatfsSeekLoop]
    by_cases hm : move = 0
    · subst hm
      rw [if_neg (by simp)]
      exact hdone h
    · rw [if_pos hm]
      dsimp only
      rw [hpos, u32_add (by omega), Nat.zero_add]
      by_cases hin : move < g.clusterByteSize
      · -- the rest lies in this cluster
        have hnone : HoldsClusters next (next cur) 0 := holds_zero _ _ _
        refine ⟨v, h, ?_⟩
        rw [if_pos hin, u32_add hlt, Nat.div_eq_of_lt hin, if_pos hnone]
        rfl
      · obtain ⟨v₁, hget, h₁⟩ := hfol v cur h
        have hstep := Nat.div_eq_sub_div hq (Nat.le_of_not_lt hin)
        rw [if_neg hin, hget, hstep]
        dsimp only
        cases hv : clusterIsValid (next cur) with
        | false =>
          refine ⟨v₁, h₁, ?_⟩
          rw [if_pos rfl, if_neg fun hh => ?_]
          have hfst := (holds_succ.mp hh).1
          simp [hv] at hfst
        | true =>
          obtain ⟨v', h', hr⟩ := ih (next cur) (currPos + g.clusterByteSize)
            (move - g.clusterByteSize) h₁ (by rw [Nat.add_mod_right, hpos]) (by omega) (by omega)
          refine ⟨v', h', ?_⟩
          rw [if_neg (by simp), Nat.sub_zero, u32_add (by omega), u32_sub (by omega) (by omega), hr,
            show currPos + g.clusterByteSize + (move - g.clusterByteSize) = currPos + move by omega,
            Function.iterate_succ_apply]
          simp only [holds_succ, hv, true_and]

/-- `fatfs_seek` walks from the current cluster. -/
theorem fatfsSeek_walks (hfol : Follows dev g R next) (hq : 0 < g.clusterByteSize) (h : R v)
    (f : File) (ho : offset < 4294967296) :
    ∃ v', R v' ∧ fatfsSeek dev g v f offset 0 =
      some (if HoldsClusters next (next (clusterT f.cblk)) (offset / g.clusterByteSize) then
        (v', { f with pos := offset
                      cblk := next^[offset / g.clusterByteSize] (clusterT f.cblk) }, 0)
        else (v', f, -1)) := by
  obtain ⟨v', h', hloop⟩ := fatfsSeekLoop_walks hfol hq offset (clusterT f.cblk) 0 offset h
    (Nat.zero_mod _) (by omega) (Nat.le_refl _)
  refine ⟨v', h', ?_⟩
  rw [fatfsSeek, if_neg (by simp), hloop, Option.map_some, Nat.zero_add]
  by_cases hwalk : HoldsClusters next (next (clusterT f.cblk)) (offset / g.clusterByteSize)
  · rw [if_pos hwalk, if_pos hwalk]
  · rw [if_neg hwalk, if_neg hwalk]

/-! ## Absolute positions -/

/-- The number of clusters that `size` bytes fill, the last one partly. -/
def sizeClusters (g : Fat) (size : Nat) : Nat := (size + g.clusterByteSize - 1) / g.clusterByteSize

/-- What a seek to `offset` with the answer `err` has to do to `f`: on success it
stands at `offset`, in the cluster of that number behind `sblk`; it succeeds
up to the size of the file when the chain holds the clusters of the file; where
it fails the file stands as it did. -/
structure SeeksRight (g : Fat) (next : Nat → Nat) (f f' : File) (offset : Nat) (err : Int) :
    Prop where
  found : err = 0 → f'.pos = offset ∧
    f'.cblk = next^[offset / g.clusterByteSize] (clusterT f.sblk)
  inside : offset ≤ f.size → HoldsClusters next (clusterT f.sblk) (sizeClusters g f.size) → err = 0
  failed : err ≠ 0 → f'.pos = f.pos ∧ f'.cblk = f.cblk

/-- The walk of `offset / cluster_byte_size` steps from the current cluster stays
on valid clusters and ends where the one from `sblk` does; or it leaves them,
and the offset is behind the size or the chain is too short for it. -/
def SeekMeets (g : Fat) (next : Nat → Nat) (f : File) (offset : Nat) : Prop :=
  if HoldsClusters next (next (clusterT f.cblk)) (offset / g.clusterByteSize) then
    next^[offset / g.clusterByteSize] (clusterT f.cblk) =
      next^[offset / g.clusterByteSize] (clusterT f.sblk)
  else f.size < offset ∨ ¬HoldsClusters next (clusterT f.sblk) (sizeClusters g f.size)

instance (g : Fat) (next : Nat → Nat) (f : File) (offset : Nat) :
    Decidable (SeekMeets g next f offset) := by
  unfold SeekMeets
  infer_instance

theorem fatfsSeek_right_iff (hfol : Follows dev g R next) (hq : 0 < g.clusterByteSize) (h : R v)
    (f : File) (ho : offset < 4294967296) :
    ∃ v' f' err, fatfsSeek dev g v f offset 0 = some (v', f', err) ∧ R v' ∧
      (SeeksRight g next f f' offset err ↔ SeekMeets g next f offset) := by
  obtain ⟨v', h', hr⟩ := fatfsSeek_walks hfol hq h f ho
  unfold SeekMeets
  split at hr
  next hwalk =>
    refine ⟨v', _, _, hr, h', ?_⟩
    rw [if_pos hwalk]
    constructor
    · exact fun hs => (hs.found rfl).2
    · exact fun he => ⟨fun _ => ⟨rfl, he⟩, fun _ _ => rfl, fun hne => absurd rfl hne⟩
  next hwalk =>
    refine ⟨v', _, _, hr, h', ?_⟩
    rw [if_neg hwalk]
    constructor
    · intro hs
      by_contra hno
      obtain ⟨hle, hhold⟩ := not_or.mp hno
      exact absurd (hs.inside (Nat.le_of_not_lt hle) (not_not.mp hhold)) (by decide)
    · intro hor
      refine ⟨fun he => absurd he (by decide), fun hle hhold => ?_, fun _ => ⟨rfl, rfl⟩⟩
      rcases hor with hlt | hshort
      · exact absurd hle (Nat.not_le_of_lt hlt)
      · exact absurd hhold hshort

/-- On a chain of clusters `l` from `sblk` that ends behind them, with the current
cluster number `j` of it: a seek is right from the first cluster to an offset
inside the chain, and where it fails behind the size of the file. -/
theorem seekMeets_chain {l : List Nat} {e j : Nat} (hp : Path next (clusterT f.sblk) l e)
    (hl : ∀ c ∈ l, clusterIsValid c = true) (he : clusterIsValid e = false) (hnd : l.Nodup)
    (hsize : sizeClusters g f.size ≤ l.length) (hj : l[j]? = some (clusterT f.cblk)) :
    SeekMeets g next f offset ↔
      if j + offset / g.clusterByteSize < l.length then j = 0 else f.size < offset := by
  have hend : ¬clusterIsValid e = true := by simp [he]
  obtain ⟨hjl, hcur⟩ := List.getElem?_eq_some_iff.mp hj
  have hwalk : ∀ {k : Nat}, j + k ≤ l.length → next^[k] (clusterT f.cblk) = l[j + k]?.getD e := by
    intro k hk
    have hfst := hp.iterate_eq (Nat.le_of_lt hjl)
    rw [hj, Option.getD_some] at hfst
    rw [← hfst, ← Function.iterate_add_apply, Nat.add_comm k j, hp.iterate_eq hk]
  have hhold : ∀ k, HoldsClusters next (next (clusterT f.cblk)) k ↔ j + k < l.length := by
    intro k
    constructor
    · intro h
      by_contra hge
      have hlast := h (l.length - j - 1) (by omega)
      rw [← Function.iterate_succ_apply, hwalk (by omega),
        List.getElem?_eq_none (by omega), Option.getD_none] at hlast
      exact hend hlast
    · intro hlt i hi
      rw [← Function.iterate_succ_apply, hwalk (by omega), List.getElem?_eq_getElem (by omega),
        Option.getD_some]
      exact hl _ (List.getElem_mem _)
  unfold SeekMeets
  simp only [hhold, hp.holds_iff hl hend, hsize, not_true, or_false]
  split
  next hlt =>
    rw [hwalk (Nat.le_of_lt hlt), hp.iterate_eq (by omega), List.getElem?_eq_getElem hlt,
      List.getElem?_eq_getElem (by omega), Option.getD_some, Option.getD_some,
      hnd.getElem_inj_iff]
    omega
  next => exact Iff.rfl

end Seek

/-- `fatfs_seek` positions absolutely exactly for the files and offsets of
`SeekMeets`, on every volume and for every open file. -/
theorem seek_right_iff {g : Fat} (hm : Mounted g) (heven : g.bytesPerSec % 2 = 0)
    (hpos : 0 < g.bytesPerSec) (hle : g.bytesPerSec ≤ 512) (hq : 0 < g.clusterByteSize)
    {dev : Dev} (hw : Works dev) {v : Volume} (hc : CacheOk v) (f : File) {offset : Nat}
    (ho : offset < 4294967296) :
    ∃ v' f' err, fatfsSeek dev g v f offset 0 = some (v', f', err) ∧
      (SeeksRight g (tableNext g v.disk) f f' offset err ↔
        SeekMeets g (tableNext g v.disk) f offset) := by
  have hb := hm.bounds
  have hfol := follows_tables (v := v) hw ((fits_iff hb).mpr (.inl hle))
    (wholeTable_of_even hb heven hpos)
  obtain ⟨v', f', err, hr, -, hiff⟩ := fatfsSeek_right_iff hfol hq hc.tables f ho
  exact ⟨v', f', err, hr, hiff⟩

/-- A file of 600 bytes on `twoClusterVol`, just opened. -/
def twoClusterFile : File where
  type := .normal
  size := 600
  pos := 0
  mode := 0
  sblk := 2
  cblk := 2
  pIndex := 0

theorem seek_right_iff_two :
    ∃ v' f' err, fatfsSeek idealDev tinyFat twoClusterVol twoClusterFile 512 0 =
        some (v', f', err) ∧
      (SeeksRight tinyFat (tableNext tinyFat twoClusterVol.disk) twoClusterFile f' 512 err ↔
        SeekMeets tinyFat (tableNext tinyFat twoClusterVol.disk) twoClusterFile 512) :=
  seek_right_iff tinyFat_mounted rfl (by decide) (by decide) (by decide) idealDev_works
    (cacheOk_uncached rfl) twoClusterFile (by decide)

/-- Back to the start of a file that was read to its end: the current cluster
stays the last one. -/
theorem seek_keeps_cluster :
    ∃ v₁ f₁ buf, fatfsRead idealDev tinyFat 0 twoClusterVol (fun _ => 0) 600 twoClusterFile =
        some (v₁, f₁, buf, 600) ∧ CacheOk v₁ ∧
      ∃ v₂ f₂, fatfsSeek idealDev tinyFat v₁ f₁ 0 0 = some (v₂, f₂, 0) ∧
        ¬SeeksRight tinyFat (tableNext tinyFat v₁.disk) f₁ f₂ 0 0 := by
  have hrun : (fatfsRead idealDev tinyFat 0 twoClusterVol (fun _ => 0) 600 twoClusterFile).map
      (fun r => (r.1.currSector, r.2.1, r.2.2.2)) =
        some (-1, { twoClusterFile with pos := 600, cblk := 3 }, 600) := by decide +kernel
  obtain ⟨⟨v₁, f₁, buf, n⟩, hread, he⟩ := Option.map_eq_some_iff.mp hrun
  obtain ⟨hcur, hf, rfl⟩ : v₁.currSector = -1 ∧ f₁ = { twoClusterFile with pos := 600, cblk := 3 } ∧
      n = 600 := by simpa using he
  refine ⟨v₁, f₁, buf, hread, cacheOk_uncached hcur, v₁, _, rfl, fun hs => ?_⟩
  have hfound := (hs.found rfl).2
  rw [hf, Nat.zero_div] at hfound
  simp [clusterT, twoClusterFile] at hfound

end Wjos
