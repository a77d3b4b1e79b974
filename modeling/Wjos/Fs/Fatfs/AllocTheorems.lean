/-
Wjos.Fs.Fatfs.AllocTheorems — when `cluster_alloc_free` returns a fresh
chain, and when a failed call leaves the tables as they were.

`alloc_fresh_iff`: for every volume on a working device it returns a fresh
chain exactly where the table has fewer than 65536 entries and each lies in
the part of its sector that is moved. On a larger table with one free cluster
the chain of two clusters that is asked for is that cluster alone
(`alloc_wraps`); where sectors are larger than what is moved an entry is read
from what happens to be in the buffer (`alloc_stale`).

`alloc_undone`: where each entry is moved, a call that fails although no
transfer failed leaves both copies as they were. The device may fail outside
the call (`Asks.works`). With sectors of 513 bytes the links of the chain
overlap in the buffer and it is not undone (`alloc_not_undone`).
-/
import Wjos.Fs.Fatfs.DeviceCalls

namespace Wjos

open Lib

/-! ## A fresh chain -/

/-- `l` is a fresh chain from `start`: its clusters were free, and nothing
else changed in the first copy; each entry of the second copy is that of the
first, or both are as they were. -/
structure FreshOnDisk (g : Fat) (disk disk' : Nat → UInt8) (start : Nat) (l : List Nat) :
    Prop where
  nodup : l.Nodup
  free : ∀ c ∈ l, InTable g c ∧ tableEntry g disk 0 c = fatClusterFree
  path : Path (tableEntry g disk' 0) start l fatClusterInvalid
  other : ∀ c < g.cTotal, c ∉ l → tableEntry g disk' 0 c = tableEntry g disk 0 c
  second : ∀ c < g.cTotal, tableEntry g disk' 1 c = tableEntry g disk' 0 c ∨
    tableEntry g disk' 0 c = tableEntry g disk 0 c ∧ tableEntry g disk' 1 c = tableEntry g disk 1 c

/-- A valid cluster that `cluster_alloc_free` returns on a working device
starts a fresh chain of the number asked for. -/
def AllocatesFresh (g : Fat) : Prop :=
  ∀ dev v cnt fuel v' r, Works dev → CacheOk v → 0 < cnt →
    clusterAllocFree dev g fuel v cnt = some (v', r) → clusterIsValid r = true →
    ∃ l : List Nat, l.length = cnt ∧ FreshOnDisk g v.disk v'.disk r l

section Fresh

variable {g : Fat} {dev : Dev} {v v' : Volume}

/-- The tables on the disk, at the start of a call. -/
theorem CacheOk.mirrored (h : CacheOk v) :
    Mirrored g (tableEntry g v.disk 0) (tableEntry g v.disk 1) v
      (tableEntry g v.disk 0, tableEntry g v.disk 1) :=
  ⟨h.tables, fun _ _ => .inr ⟨rfl, rfl⟩⟩

theorem FreshChain.onDisk {t : (Nat → Nat) × (Nat → Nat)} {start : Nat} {l : List Nat}
    (h : FreshChain g (tableEntry g v.disk 0) t.1 start l)
    (hm : Mirrored g (tableEntry g v.disk 0) (tableEntry g v.disk 1) v' t) :
    FreshOnDisk g v.disk v'.disk start l := by
  obtain ⟨ht, hsecond⟩ := hm
  refine ⟨h.nodup, h.free, h.path.congr fun c hc => ht.fst c (h.free c hc).1.2,
    fun c hc hcl => (ht.fst c hc).trans (h.other c hcl), fun c hc => ?_⟩
  rw [ht.fst c hc, ht.snd c hc]
  exact hsecond c hc

theorem allocatesFresh_of_fits (hf : Fits g) (ht : g.cTotal ≤ 65535) : AllocatesFresh g := by
  intro dev v cnt fuel v' r hw hc hcnt hr hv
  have hsim := mirrored_simulates hw hf (tableEntry g v.disk 0) (tableEntry g v.disk 1)
  obtain ⟨t, hm, ⟨l, hlen, -, hfresh⟩ | ⟨rfl, -⟩⟩ :=
    clusterAllocFree_built hsim ht (a := (tableEntry g v.disk 0, tableEntry g v.disk 1))
      hc.mirrored hr
  · exact ⟨l, hlen, hfresh.onDisk hm⟩
  · exact absurd hv (by decide)

end Fresh

/-! ## A table of 65536 entries -/

section Wrap

variable {α : Type*} {dev : Dev} {g : Fat} {R : Volume → α → Prop} {fat : α → Nat → Nat}
  {upd : α → Nat → Nat → α} {v v' : Volume} {a : α}

/-- The scan passes over clusters that are not free. -/
theorem allocScan_skip (hsim : Simulates dev g R fat upd) (ht : 65536 ≤ g.cTotal)
    (pre start : Nat) {cnt : Nat} (hcnt : cnt ≠ 0) (n k : Nat) :
    ∀ {v : Volume} {curr : Nat}, R v a → curr < 65536 →
      (∀ i < k, fat a ((curr + i) % 65536) ≠ fatClusterFree) →
      ∃ v₁, R v₁ a ∧ allocScan dev g (k + n) v pre start curr cnt =
        allocScan dev g n v₁ pre start ((curr + k) % 65536) cnt := by
  induction k with
  | zero =>
    intro v curr h hcurr _
    refine ⟨v, h, ?_⟩
    rw [Nat.add_zero, Nat.mod_eq_of_lt hcurr, Nat.zero_add]
  | succ k ih =>
    intro v curr h hcurr hused
    have hget : ∃ v₁ x, clusterGetNext dev g v curr = (v₁, x) ∧ R v₁ a ∧ x ≠ fatClusterFree := by
      cases hv : clusterIsValid curr with
      | false => exact ⟨v, _, clusterGetNext_of_not_valid hv, h, by decide⟩
      | true =>
        obtain ⟨v₁, hget, h₁⟩ := hsim.get h (c := curr) ⟨hv, by omega⟩
        have hne := hused 0 (Nat.succ_pos k)
        rw [Nat.add_zero, Nat.mod_eq_of_lt hcurr] at hne
        exact ⟨v₁, _, hget, h₁, hne⟩
    obtain ⟨v₁, x, hget, h₁, hx⟩ := hget
    obtain ⟨v₂, h₂, hscan⟩ := ih h₁ (Nat.mod_lt (curr + 1) (by decide)) (fun i hi => by
      have hne := hused (i + 1) (by omega)
      rwa [Nat.mod_add_mod, Nat.add_assoc, Nat.add_comm 1 i])
    refine ⟨v₂, h₂, ?_⟩
    rw [Nat.succ_add, allocScan, if_pos ⟨hcnt, by omega⟩, hget]
    dsimp only
    rw [if_neg hx, hscan, Nat.mod_add_mod, Nat.add_assoc, Nat.add_comm 1 k]

/-- With cluster 2 as the only free one, two that are asked for are cluster 2
alone. -/
theorem allocFree_wraps (hsim : Simulates dev g R fat upd) (ht : 65536 ≤ g.cTotal) (h : R v a)
    (hf : ∀ c, fat a c = fatClusterFree ↔ c = 2) :
    ∃ v' a', clusterAllocFree dev g 65538 v 2 = some (v', 2) ∧ R v' a' ∧
      fat a' 2 = fatClusterInvalid := by
  have hin : InTable g 2 := ⟨by decide, by omega⟩
  have hfree : fat a 2 = fatClusterFree := (hf 2).mpr rfl
  have hni : ¬clusterIsValid fatClusterInvalid = true := by decide
  have hv : clusterIsValid 2 = true := hin.valid
  -- the first cluster
  obtain ⟨v₁, hget₁, h₁⟩ := hsim.get h hin
  have hfirst : allocScan dev g 65538 v fatClusterInvalid fatClusterInvalid 2 2 =
      allocScan dev g (65535 + 2) v₁ 2 2 3 1 := by
    rw [allocScan, if_pos ⟨by decide, by omega⟩, hget₁]
    dsimp only
    rw [if_pos hfree]
    simp only [if_neg hni]
    rfl
  -- the index comes back to it
  have hused : ∀ i < 65535, fat a ((3 + i) % 65536) ≠ fatClusterFree := by
    intro i hi he
    have := (hf _).mp he
    omega
  obtain ⟨v₂, h₂, hskip⟩ := allocScan_skip hsim ht 2 2 Nat.one_ne_zero 2 65535 h₁
    (by decide) hused
  -- it is still marked free
  obtain ⟨v₃, hget₃, h₃⟩ := hsim.get h₂ hin
  obtain ⟨v₄, hset₄, h₄⟩ := hsim.set h₃ hin (x := 2) (by decide)
  have hagain : allocScan dev g 2 v₂ 2 2 2 1 = some ⟨v₄, 2, 2, 0, false⟩ := by
    rw [allocScan, if_pos ⟨by decide, by omega⟩, hget₃]
    dsimp only
    rw [if_pos hfree, if_pos hv, hset₄]
    dsimp only
    rw [if_neg (by decide), if_pos hv, allocScan, if_neg (by simp)]
  obtain ⟨v₅, hset₅, h₅⟩ := hsim.set h₄ hin (x := fatClusterInvalid) (by decide)
  refine ⟨v₅, _, ?_, h₅, ?_⟩
  · rw [clusterAllocFree, clusterAllocLoop_eq, hfirst, hskip]
    simp only [show (3 + 65535) % 65536 = 2 from rfl]
    rw [hagain, Option.bind_some, allocAfter, if_neg Bool.false_ne_true, clusterAllocEnd,
      if_pos rfl, hset₅]
    exact if_pos rfl
  · rw [hsim.fat_upd hin, Function.update_self]

end Wrap

section Counterexamples

variable {g : Fat}

theorem fullVol_cacheOk : CacheOk fullVol := fun s hs =>
  absurd hs (by simp only [fullVol]; omega)

theorem tableEntry_full (k c : Nat) : tableEntry g fullVol.disk k c ≠ fatClusterFree :=
  le16_full _

/-- A table of 65536 entries with one free cluster: two clusters are asked for,
and the chain that is returned ends at its first one. -/
theorem alloc_wraps (hf : Fits g) (ht : 65536 ≤ g.cTotal) :
    ∃ v v', CacheOk v ∧ clusterAllocFree idealDev g 65538 v 2 = some (v', 2) ∧
      tableEntry g v'.disk 0 2 = fatClusterInvalid := by
  have hin : InTable g 2 := ⟨by decide, by omega⟩
  have hsim := tables_simulates (g := g) idealDev_works hf
  have hfull : Tables g fullVol (tableEntry g fullVol.disk 0) (tableEntry g fullVol.disk 1) :=
    fullVol_cacheOk.tables
  obtain ⟨v, -, h⟩ := hsim.set
    (a := (tableEntry g fullVol.disk 0, tableEntry g fullVol.disk 1)) (x := 0) hfull hin (by decide)
  obtain ⟨v', t, hr, h', hend⟩ := allocFree_wraps hsim ht h fun c => by
    by_cases hc : c = 2
    · simp [setBoth, hc, fatClusterFree]
    · simpa [setBoth, hc] using tableEntry_full 0 c
  exact ⟨v, v', h.cached, hr, (h'.fst 2 hin.2).trans hend⟩

/-- Such a result is no fresh chain of two clusters. -/
theorem not_allocatesFresh_of_wraps {v v' : Volume} (hc : CacheOk v)
    (hr : clusterAllocFree idealDev g 65538 v 2 = some (v', 2))
    (hend : tableEntry g v'.disk 0 2 = fatClusterInvalid) : ¬AllocatesFresh g := by
  intro h
  obtain ⟨l, hlen, hfresh⟩ := h idealDev v 2 65538 v' 2 idealDev_works hc (by decide) hr (by decide)
  obtain ⟨b, c, rfl⟩ := List.length_eq_two.mp hlen
  obtain ⟨rfl, rfl, -⟩ := hfresh.path
  have hvalid := (hfresh.free (tableEntry g v'.disk 0 2) (by simp)).1.valid
  rw [hend] at hvalid
  exact absurd hvalid (by decide)

/-- A volume without a free cluster, with the first sector of the table in
the buffer; behind the 512 bytes that were moved the buffer is zero. -/
def staleVol (g : Fat) : Volume where
  disk := fun _ => 0xFF
  fatBuffer := fun i => if i < 512 then 0xFF else 0
  currSector := g.tblStart
  calls := 0
  stack := fun _ => 0

theorem staleVol_cacheOk : CacheOk (staleVol g) := fun _ _ _ hi => if_pos hi

/-- Behind sector 0 of the table nothing is looked up up to cluster 256. -/
theorem stale_address (hb : 512 < g.bytesPerSec) {c : Nat} (hc : c ≤ 256) :
    c * clusterSize / g.bytesPerSec = 0 ∧ c * clusterSize % g.bytesPerSec = c * 2 := by
  have hlt : c * clusterSize < g.bytesPerSec := by
    rw [clusterSize]
    omega
  exact ⟨Nat.div_eq_of_lt hlt, Nat.mod_eq_of_lt hlt⟩

theorem breadSector_stale : breadSector idealDev (staleVol g) (g.tblStart + 0) = (staleVol g, 0) :=
  if_pos rfl

/-- The entries up to 256 are looked up in the buffer. -/
theorem clusterGetNext_stale (hb : 512 < g.bytesPerSec) (hs : 0 < g.tblSectors) {c : Nat}
    (h₂ : 2 ≤ c) (hc : c ≤ 256) :
    clusterGetNext idealDev g (staleVol g) c =
      (staleVol g, le16 (staleVol g).fatBuffer (c * 2)) := by
  have hv : clusterIsValid c = true := clusterIsValid_iff.mpr ⟨h₂, by omega⟩
  obtain ⟨hsec, hoff⟩ := stale_address hb hc
  unfold clusterGetNext
  rw [if_neg (by simp [hv])]
  simp only [hsec, hoff, if_neg (Nat.not_le.mpr hs), breadSector_stale]
  rfl

theorem clusterSetNext_stale (hb : 512 < g.bytesPerSec) (hs : 0 < g.tblSectors)
    (hcnt : g.tblCnt = 2) :
    ∃ v', clusterSetNext idealDev g (staleVol g) 256 fatClusterInvalid = (v', 0) := by
  obtain ⟨hsec, hoff⟩ := stale_address hb (c := 256) (by decide)
  unfold clusterSetNext
  rw [if_neg (by decide)]
  simp only [hsec, if_neg (Nat.not_le.mpr hs), breadSector_stale, hcnt, writeCopies,
    bwriteSector_eq idealDev_works]
  exact ⟨_, rfl⟩

theorem allocScan_stale (hb : 512 < g.bytesPerSec) (ht : 256 < g.cTotal) (hs : 0 < g.tblSectors)
    (n k : Nat) (hk : k ≤ 254) :
    allocScan idealDev g (k + n) (staleVol g) fatClusterInvalid fatClusterInvalid (256 - k) 1 =
      allocScan idealDev g n (staleVol g) fatClusterInvalid fatClusterInvalid 256 1 := by
  induction k with
  | zero => rw [Nat.zero_add, Nat.sub_zero]
  | succ k ih =>
    have hsucc : (256 - (k + 1) + 1) % 65536 = 256 - k := by omega
    have hne : le16 (staleVol g).fatBuffer ((256 - (k + 1)) * 2) ≠ fatClusterFree := by
      have heq : le16 (staleVol g).fatBuffer ((256 - (k + 1)) * 2) = le16 fullVol.disk 0 :=
        le16_congr (if_pos (by omega)) (if_pos (by omega))
      rw [heq]
      exact le16_full 0
    rw [Nat.succ_add, allocScan, if_pos ⟨by decide, by omega⟩,
      clusterGetNext_stale hb hs (by omega) (by omega)]
    dsimp only
    rw [if_neg hne, hsucc]
    exact ih (by omega)

/-- Where a sector is larger than what is moved, the cluster that is returned
need not have been free. -/
theorem alloc_stale (hb : 512 < g.bytesPerSec) (ht : 256 < g.cTotal) (hs : 0 < g.tblSectors)
    (hcnt : g.tblCnt = 2) :
    ∃ v', clusterAllocFree idealDev g 256 (staleVol g) 1 = some (v', 256) := by
  have hni : ¬clusterIsValid fatClusterInvalid = true := by decide
  have hzero : le16 (staleVol g).fatBuffer (256 * 2) = fatClusterFree := by
    simp [le16, staleVol, fatClusterFree]
  have hfound : allocScan idealDev g 2 (staleVol g) fatClusterInvalid fatClusterInvalid 256 1 =
      some ⟨staleVol g, 256, 256, 0, false⟩ := by
    rw [allocScan, if_pos ⟨by decide, ht⟩, clusterGetNext_stale hb hs (by decide) (by decide)]
    dsimp only
    rw [if_pos hzero]
    simp only [if_neg hni]
    rw [if_neg (by decide), allocScan, if_neg (by simp)]
  have hscan : allocScan idealDev g 256 (staleVol g) fatClusterInvalid fatClusterInvalid 2 1 =
      some ⟨staleVol g, 256, 256, 0, false⟩ :=
    (allocScan_stale hb ht hs 2 254 (by decide)).trans hfound
  obtain ⟨v', hset⟩ := clusterSetNext_stale hb hs hcnt
  refine ⟨v', ?_⟩
  rw [clusterAllocFree, clusterAllocLoop_eq, hscan, Option.bind_some, allocAfter,
    if_neg Bool.false_ne_true, clusterAllocEnd, if_pos rfl, hset]
  exact if_pos rfl

theorem not_allocatesFresh_of_stale {v' : Volume}
    (hr : clusterAllocFree idealDev g 256 (staleVol g) 1 = some (v', 256)) : ¬AllocatesFresh g := by
  intro h
  obtain ⟨l, hlen, hfresh⟩ := h idealDev (staleVol g) 1 256 v' 256 idealDev_works staleVol_cacheOk
    (by decide) hr (by decide)
  obtain ⟨b, rfl⟩ := List.length_eq_one_iff.mp hlen
  have hfree := (hfresh.free b List.mem_cons_self).2
  exact tableEntry_full 0 b hfree

end Counterexamples

/-- On every volume and for every number asked for, `cluster_alloc_free`
returns a fresh chain exactly where the table has fewer than 65536 entries
and each lies in the 512 bytes that are moved with its sector. -/
theorem alloc_fresh_iff {g : Fat} (hm : Mounted g) :
    AllocatesFresh g ↔ g.cTotal ≤ 65535 ∧ (g.bytesPerSec ≤ 512 ∨ g.cTotal ≤ 256) := by
  have hb := hm.bounds
  constructor
  · intro h
    by_contra hno
    rcases not_and_or.mp hno with ht | hbps
    · by_cases hle : g.bytesPerSec ≤ 512
      · obtain ⟨v, v', hc, hr, hend⟩ := alloc_wraps ((fits_iff hb).mpr (.inl hle)) (by omega)
        exact not_allocatesFresh_of_wraps hc hr hend h
      · have hs := Nat.zero_lt_of_lt (hb.sector_lt (c := 256) (by omega))
        obtain ⟨v', hr⟩ := alloc_stale (by omega) (by omega) hs hb.tblCnt
        exact not_allocatesFresh_of_stale hr h
    · obtain ⟨h₁, h₂⟩ := not_or.mp hbps
      have hs := Nat.zero_lt_of_lt (hb.sector_lt (c := 256) (by omega))
      obtain ⟨v', hr⟩ := alloc_stale (by omega) (by omega) hs hb.tblCnt
      exact not_allocatesFresh_of_stale hr h
  · rintro ⟨ht, hfit⟩
    exact allocatesFresh_of_fits ((fits_iff hb).mpr hfit) ht

/-- Two clusters of a volume with one table sector. -/
theorem alloc_fresh_iff_tiny : AllocatesFresh tinyFat :=
  (alloc_fresh_iff tinyFat_mounted).mpr ⟨by decide, .inl (by decide)⟩

/-- A full table of 65536 entries but for cluster 2: of two clusters asked for
one is returned. -/
theorem alloc_wraps_maxFat : Mounted maxFat ∧ ¬AllocatesFresh maxFat := by
  obtain ⟨v, v', hc, hr, hend⟩ :=
    alloc_wraps ((fits_iff maxFat_mounted.bounds).mpr (.inl (by decide))) (by decide)
  exact ⟨maxFat_mounted, not_allocatesFresh_of_wraps hc hr hend⟩

/-! ## A failed call -/

section Failed

variable {α : Type*} {dev : Dev} {g : Fat} {R : Volume → α → Prop} {fat : α → Nat → Nat}
  {upd : α → Nat → Nat → α} {v v' : Volume} {a : α} {f₀ : Nat → Nat}

/-- Where the scan of a table of 65536 entries stands: nothing is taken, or
both ends of the chain have entries. -/
def Scanned (g : Fat) (f₀ f : Nat → Nat) (pre start : Nat) : Prop :=
  pre = fatClusterInvalid ∧ start = fatClusterInvalid ∧ f = f₀ ∨ InTable g pre ∧ InTable g start

/-- On such a table the scan only stops when it has counted off all clusters. -/
theorem allocScan_scanned (hsim : Simulates dev g R fat upd) (ht : 65536 ≤ g.cTotal) (n : Nat)
    {r : AllocStop} :
    ∀ {v : Volume} {a : α} {pre start curr cnt : Nat}, Scanned g f₀ (fat a) pre start →
      curr < 65536 → R v a → allocScan dev g n v pre start curr cnt = some r →
      ∃ a', Scanned g f₀ (fat a') r.pre r.start ∧ R r.vol a' ∧ r.err = false ∧ r.cnt = 0 := by
  induction n with
  | zero => exact fun _ _ _ hr => absurd hr (by simp [allocScan])
  | succ n ih =>
    intro v a pre start curr cnt hb hcurr h hr
    have hmod : (curr + 1) % 65536 < 65536 := Nat.mod_lt _ (by decide)
    rw [allocScan] at hr
    split at hr
    next hgo =>
      cases hv : clusterIsValid curr with
      | false =>
        rw [clusterGetNext_of_not_valid hv] at hr
        dsimp only at hr
        rw [if_neg (by decide)] at hr
        exact ih hb hmod h hr
      | true =>
        have hin : InTable g curr := ⟨hv, hgo.2⟩
        obtain ⟨v₁, hget, h₁⟩ := hsim.get h hin
        rw [hget] at hr
        dsimp only at hr
        by_cases hf : fat a curr = fatClusterFree
        · rw [if_pos hf] at hr
          rcases hb with ⟨rfl, rfl, -⟩ | ⟨hpre, hstart⟩
          · have hni : clusterIsValid fatClusterInvalid ≠ true := by decide
            simp only [if_neg hni] at hr
            rw [if_neg (by decide)] at hr
            exact ih (.inr ⟨hin, hin⟩) hmod h₁ hr
          · obtain ⟨v₂, hset, h₂⟩ := hsim.set h₁ hpre hcurr
            rw [if_pos hpre.valid, hset] at hr
            dsimp only at hr
            rw [if_neg (by decide), if_pos hstart.valid] at hr
            exact ih (.inr ⟨hin, hstart⟩) hmod h₂ hr
        · rw [if_neg hf] at hr
          exact ih hb hmod h₁ hr
    next hgo =>
      obtain rfl := Option.some.inj hr
      refine ⟨a, hb, h, rfl, ?_⟩
      by_contra hcnt
      exact hgo ⟨hcnt, by omega⟩

/-- A call that fails leaves the table as it was, on a table of any size. -/
theorem clusterAllocFree_failed (hsim : Simulates dev g R fat upd) (h : R v a) {fuel cnt : Nat}
    (hr : clusterAllocFree dev g fuel v cnt = some (v', fatClusterInvalid)) :
    ∃ a', R v' a' ∧ fat a' = fat a := by
  by_cases ht : g.cTotal ≤ 65535
  · obtain ⟨a', h', ⟨l, -, hne, hfresh⟩ | ⟨-, hfat⟩⟩ := clusterAllocFree_built hsim ht h hr
    · have hmem := hfresh.path.start_mem hne
      exact absurd (hfresh.free _ hmem).1.valid (by decide)
    · exact ⟨a', h', hfat⟩
  · rw [clusterAllocFree, clusterAllocLoop_eq] at hr
    obtain ⟨s, hscan, hafter⟩ := Option.bind_eq_some_iff.mp hr
    obtain ⟨a₁, hb, h₁, herr, hcnt⟩ := allocScan_scanned hsim (by omega) fuel
      (.inl ⟨rfl, rfl, rfl⟩ : Scanned g (fat a) (fat a) fatClusterInvalid fatClusterInvalid)
      (by decide) h hscan
    rw [allocAfter, if_neg (by simp [herr]), clusterAllocEnd, if_pos hcnt] at hafter
    rcases hb with ⟨hpre, hstart, hfat⟩ | ⟨hpre, hstart⟩
    · rw [hpre, hstart, clusterSetNext_of_not_valid (by decide)] at hafter
      obtain ⟨v₁, hfree, he⟩ := Option.map_eq_some_iff.mp hafter
      rw [clusterFreeChain_of_not_valid (by decide)] at hfree
      obtain rfl := Option.some.inj hfree
      obtain ⟨rfl, -⟩ := Prod.mk.inj he
      exact ⟨a₁, h₁, hfat⟩
    · obtain ⟨v₁, hset, h₂⟩ := hsim.set h₁ hpre (x := fatClusterInvalid) (by decide)
      rw [hset] at hafter
      dsimp only at hafter
      rw [if_pos rfl] at hafter
      obtain ⟨-, he⟩ := Prod.mk.inj (Option.some.inj hafter)
      exact absurd (he ▸ hstart.valid) (by decide)

end Failed

/-- A call that fails although no transfer failed leaves every entry of both
copies as it was, where they were equal. -/
def UndoesAlloc (g : Fat) : Prop :=
  ∀ dev v cnt fuel v', CacheOk v →
    (∀ c < g.cTotal, tableEntry g v.disk 1 c = tableEntry g v.disk 0 c) →
    clusterAllocFree dev g fuel v cnt = some (v', fatClusterInvalid) → NoFailure dev v v' →
    ∀ k < 2, ∀ c < g.cTotal, tableEntry g v'.disk k c = tableEntry g v.disk k c

/-- A failed allocation is undone where sectors are no larger than what is
moved. -/
theorem alloc_undone {g : Fat} (hm : Mounted g) (hfit : g.bytesPerSec ≤ 512 ∨ g.cTotal ≤ 256) :
    UndoesAlloc g := by
  intro dev v cnt fuel v' hc heq hr hno
  rw [← (clusterAllocFree_asks hr).works hno] at hr
  have hsim := mirrored_simulates idealDev_works ((fits_iff hm.bounds).mpr hfit)
    (tableEntry g v.disk 0) (tableEntry g v.disk 1)
  obtain ⟨t, ⟨ht, hsecond⟩, hfst⟩ := clusterAllocFree_failed hsim
    (a := (tableEntry g v.disk 0, tableEntry g v.disk 1)) hc.mirrored hr
  have h₀ : ∀ c < g.cTotal, tableEntry g v'.disk 0 c = tableEntry g v.disk 0 c := by
    intro c hct
    rw [ht.fst c hct, hfst]
  intro k hk c hct
  obtain rfl | rfl : k = 0 ∨ k = 1 := by omega
  · exact h₀ c hct
  · rw [ht.snd c hct]
    rcases hsecond c hct with he | ⟨-, he⟩
    · rw [he, hfst]
      exact (heq c hct).symm
    · exact he

theorem alloc_undone_tiny : UndoesAlloc tinyFat := alloc_undone tinyFat_mounted (.inl (by decide))

/-- Sectors of 513 bytes. -/
def oddFat : Fat where
  tblStart := 1
  tblCnt := 2
  tblSectors := 3
  bytesPerSec := 513
  secPerCluster := 1
  rootEntCnt := 16
  rootStart := 7
  dataStart := 8
  clusterByteSize := 513

theorem oddFat_mounted : Mounted oddFat := ⟨bootSector 513 3, by decide +kernel⟩

/-- The entry of cluster 600 and the low byte of that of cluster 512 are zero
in both copies, and so is the buffer. -/
def oddVol : Volume where
  disk := fun a => if [1535, 3071, 1710, 1711, 3246, 3247].contains a then 0 else 0xFF
  fatBuffer := fun _ => 0
  currSector := -1
  calls := 0
  stack := fun _ => 0

/-- The entries of 256 and 512 share byte 512 of the buffer: the chain 256,
512, 600 is built, and freeing it goes from 256 to cluster 514, which was in
use. -/
theorem alloc_not_undone :
    Mounted oddFat ∧ ¬UndoesAlloc oddFat := by
  refine ⟨oddFat_mounted, fun h => ?_⟩
  have hrun : (clusterAllocFree idealDev oddFat 800 oddVol 4).map
      (fun p => (p.2, tableEntry oddFat p.1.disk 0 514)) = some (fatClusterInvalid, 0) := by
    decide +kernel
  obtain ⟨⟨v', r⟩, hr, he⟩ := Option.map_eq_some_iff.mp hrun
  obtain ⟨rfl, hentry⟩ := Prod.mk.inj he
  have hc : CacheOk oddVol := fun s hs => absurd hs (by simp only [oddVol]; omega)
  have heq : ∀ c < oddFat.cTotal,
      tableEntry oddFat oddVol.disk 1 c = tableEntry oddFat oddVol.disk 0 c := by decide +kernel
  have hsame := h idealDev oddVol 4 800 v' hc heq hr (fun _ _ _ _ => rfl) 0 (by decide) 514
    (by decide)
  rw [hentry] at hsame
  exact absurd hsame (by decide +kernel)

end Wjos
