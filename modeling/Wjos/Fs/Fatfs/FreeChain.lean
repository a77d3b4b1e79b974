/-
Wjos.Fs.Fatfs.FreeChain — what `cluster_free_chain` frees.

Nothing is assumed of the table. The walk stands on clusters with an entry
and ends where it leaves them; `Reach` is the set it comes to. Each round
clears the entry it stands on, so a walk that comes back to a cluster finds
it free and ends there: `clusterFreeChain_ends` counts the entries that are
not free. `clusterFreeChain_visits` lists the clusters whose entries are
cleared, and `free_chain_exact` says what that leaves in both copies.
-/
import Mathlib.Data.Finset.Card
import Mathlib.Order.Interval.Finset.Nat
import Wjos.Fs.Fatfs.Table

namespace Wjos

open Lib

/-- The walk along the table `f` from `start` comes to `c`, which has an entry. -/
abbrev Reach (g : Fat) (f : Nat → Nat) (start c : Nat) : Prop := OnChain f (InTable g) start c

/-- A valid cluster without an entry lies behind the sectors of the table. -/
def WholeTable (g : Fat) : Prop :=
  ∀ c, clusterIsValid c = true → ¬InTable g c → g.tblSectors ≤ c * 2 / g.bytesPerSec

/-- The number of 16-bit clusters that are not free. -/
def usedCount (f : Nat → Nat) : Nat := ((Finset.range 65536).filter fun c => f c ≠ 0).card

section Walk

variable {g : Fat} {f : Nat → Nat} {start c : Nat}

theorem not_inTable_zero : ¬InTable g 0 := fun h => absurd h.valid (by decide)

/-- The walk after its first entry was cleared: it comes to the same
clusters, but for the first one. -/
theorem reach_iff (hs : InTable g start) :
    Reach g f start c ↔ c = start ∨ Reach g (Function.update f start 0) (f start) c := by
  constructor
  · intro h
    refine OnChain.closed (P := fun c => c = start ∨
      Reach g (Function.update f start 0) (f start) c) ?_ h (.inl rfl)
    intro x hx hnext
    by_cases hxs : x = start
    · rw [hxs] at hnext ⊢
      exact .inr (OnChain.refl hnext)
    · have hreach := hx.resolve_left hxs
      have heq : Function.update f start 0 x = f x := Function.update_of_ne hxs _ _
      rw [← heq] at hnext ⊢
      exact .inr (hreach.tail hnext)
  · rintro (rfl | h)
    · exact OnChain.refl hs
    · exact OnChain.head hs (h.of_update not_inTable_zero)

theorem usedCount_update_lt (hc : InTable g c) (hn : f c ≠ 0) :
    usedCount (Function.update f c 0) < usedCount f := by
  have hlt := hc.lt
  refine Finset.card_lt_card ((Finset.ssubset_iff_of_subset ?_).mpr ⟨c, ?_, ?_⟩)
  · intro d hd
    rw [Finset.mem_filter] at hd ⊢
    refine ⟨hd.1, ?_⟩
    have hdc : d ≠ c := by
      rintro rfl
      exact hd.2 (Function.update_self ..)
    rw [← Function.update_of_ne hdc 0 f]
    exact hd.2
  · rw [Finset.mem_filter, Finset.mem_range]
    exact ⟨by omega, hn⟩
  · simp

theorem usedCount_le (f : Nat → Nat) : usedCount f ≤ 65536 := by
  have h := Finset.card_filter_le (Finset.range 65536) fun c => f c ≠ 0
  rwa [Finset.card_range] at h

end Walk

section Free

variable {α : Type*} {dev : Dev} {g : Fat} {R : Volume → α → Prop} {fat : α → Nat → Nat}
  {upd : α → Nat → Nat → α} {v v' : Volume} {a : α} {start : Nat}

/-- One round, on a cluster with an entry. -/
theorem clusterFreeChain_step (hsim : Simulates dev g R fat upd) (h : R v a)
    (hs : InTable g start) (fuel : Nat) :
    ∃ v₁, R v₁ (upd a start 0) ∧
      clusterFreeChain dev g (fuel + 1) v start = clusterFreeChain dev g fuel v₁ (fat a start) := by
  obtain ⟨v₁, hget, h₁⟩ := hsim.get h hs
  obtain ⟨v₂, hset, h₂⟩ := hsim.set h₁ hs (x := 0) (by decide)
  refine ⟨v₂, h₂, ?_⟩
  rw [clusterFreeChain, if_pos hs.valid]
  simp only [hget, hset, fatClusterFree]

/-- The round that leaves the table is the last one. -/
theorem clusterFreeChain_out (hwhole : WholeTable g) (hv : clusterIsValid start = true)
    (hs : ¬InTable g start) (fuel : Nat) :
    clusterFreeChain dev g (fuel + 1) v start = some v := by
  have hge := hwhole start hv hs
  rw [clusterFreeChain, if_pos hv]
  simp only [clusterGetNext_of_ge hge, clusterSetNext_of_ge hge]
  exact clusterFreeChain_of_not_valid (by decide) fuel v

/-- The loop ends: a round that does not end it clears an entry. -/
theorem clusterFreeChain_ends (hsim : Simulates dev g R fat upd) (hwhole : WholeTable g)
    (fuel : Nat) :
    ∀ {v : Volume} {a : α} (start : Nat), R v a → usedCount (fat a) < fuel →
      ∃ v', clusterFreeChain dev g fuel v start = some v' := by
  induction fuel with
  | zero => exact fun _ _ hn => absurd hn (Nat.not_lt_zero _)
  | succ fuel ih =>
    intro v a start h hn
    cases hv : clusterIsValid start with
    | false => exact ⟨v, clusterFreeChain_of_not_valid hv _ v⟩
    | true =>
      by_cases hs : InTable g start
      · obtain ⟨v₁, h₁, hstep⟩ := clusterFreeChain_step hsim h hs fuel
        rw [hstep]
        by_cases hz : fat a start = 0
        · rw [hz]
          exact ⟨v₁, clusterFreeChain_of_not_valid (by decide) _ v₁⟩
        · have hlt := usedCount_update_lt hs hz
          rw [← hsim.fat_upd hs] at hlt
          exact ih (fat a start) h₁ (by omega)
      · exact ⟨v, clusterFreeChain_out hwhole hv hs fuel⟩

/-- What the loop does: it clears the entries of the clusters it comes to. -/
theorem clusterFreeChain_visits (hsim : Simulates dev g R fat upd) (hwhole : WholeTable g)
    (fuel : Nat) :
    ∀ {v : Volume} {a : α} {start : Nat}, R v a →
      clusterFreeChain dev g fuel v start = some v' →
      ∃ l : List Nat, (∀ c, c ∈ l ↔ Reach g (fat a) start c) ∧
        R v' (l.foldl (fun a c => upd a c 0) a) := by
  have hnone : ∀ {v : Volume} {a : α} {start : Nat}, R v a → ¬InTable g start → v = v' →
      ∃ l : List Nat, (∀ c, c ∈ l ↔ Reach g (fat a) start c) ∧
        R v' (l.foldl (fun a c => upd a c 0) a) := by
    rintro v a start h hs rfl
    refine ⟨[], fun c => iff_of_false List.not_mem_nil fun hc => hs hc.valid_left, h⟩
  induction fuel with
  | zero =>
    intro v a start h hr
    rw [clusterFreeChain] at hr
    split at hr
    · exact absurd hr (by simp)
    next hv => exact hnone h (fun hs => hv hs.valid) (Option.some.inj hr)
  | succ fuel ih =>
    intro v a start h hr
    by_cases hs : InTable g start
    · obtain ⟨v₁, h₁, hstep⟩ := clusterFreeChain_step hsim h hs fuel
      rw [hstep] at hr
      obtain ⟨l, hl, hR⟩ := ih h₁ hr
      refine ⟨start :: l, fun c => ?_, hR⟩
      rw [List.mem_cons, hl, hsim.fat_upd hs, reach_iff hs]
    · cases hv : clusterIsValid start with
      | false =>
        rw [clusterFreeChain_of_not_valid hv] at hr
        exact hnone h hs (Option.some.inj hr)
      | true =>
        rw [clusterFreeChain_out hwhole hv hs] at hr
        exact hnone h hs (Option.some.inj hr)

end Free

/-! ## Both copies -/

section Copies

variable {g : Fat} {dev : Dev} {v v' : Volume}

/-- The first copy after the entries of `l` were cleared. -/
theorem setBoth_fold_fst (l : List Nat) (t : (Nat → Nat) × (Nat → Nat)) (c : Nat) :
    (l.foldl (fun t c => setBoth g t c 0) t).1 c = if c ∈ l then 0 else t.1 c := by
  induction l generalizing t with
  | nil => simp
  | cons b l ih =>
    rw [List.foldl_cons, ih]
    by_cases hcb : c = b
    · simp [setBoth, hcb]
    · simp [setBoth, hcb]

/-- The second copy: its sectors that were written are those of the first. -/
theorem setBoth_fold_snd (l : List Nat) (t : (Nat → Nat) × (Nat → Nat)) (d : Nat) :
    (l.foldl (fun t c => setBoth g t c 0) t).2 d =
      if ∃ c ∈ l, d * 2 / g.bytesPerSec = c * 2 / g.bytesPerSec then
        (l.foldl (fun t c => setBoth g t c 0) t).1 d
      else t.2 d := by
  induction l generalizing t with
  | nil => simp
  | cons b l ih =>
    rw [List.foldl_cons, ih]
    by_cases hl : ∃ c ∈ l, d * 2 / g.bytesPerSec = c * 2 / g.bytesPerSec
    · rw [if_pos hl, if_pos]
      obtain ⟨c, hc, hs⟩ := hl
      exact ⟨c, List.mem_cons_of_mem _ hc, hs⟩
    · rw [if_neg hl]
      have hdl : d ∉ l := fun hd => hl ⟨d, hd, rfl⟩
      by_cases hb : d * 2 / g.bytesPerSec = b * 2 / g.bytesPerSec
      · rw [if_pos ⟨b, List.mem_cons_self, hb⟩, setBoth_fold_fst, if_neg hdl]
        exact if_pos hb
      · rw [if_neg]
        · exact if_neg hb
        · rintro ⟨c, hc, hs⟩
          rcases List.mem_cons.mp hc with rfl | hc
          · exact hb hs
          · exact hl ⟨c, hc, hs⟩

/-- With an even number of bytes in a sector the table ends at an entry. -/
theorem wholeTable_of_even (hb : g.Bounds) (heven : g.bytesPerSec % 2 = 0)
    (hpos : 0 < g.bytesPerSec) : WholeTable g := by
  intro c hv hc
  have hge : g.cTotal ≤ c := Nat.le_of_not_lt fun hlt => hc ⟨hv, hlt⟩
  rw [hb.cTotal_eq] at hge
  obtain ⟨m, hm⟩ := Nat.dvd_of_mod_eq_zero heven
  refine (Nat.le_div_iff_mul_le hpos).mpr ?_
  have hmul : g.tblSectors * g.bytesPerSec = 2 * (g.tblSectors * m) := by
    rw [hm, Nat.mul_left_comm]
  omega

/-- The cached sector is as the disk has it. -/
def CacheOk (v : Volume) : Prop :=
  ∀ s : Nat, v.currSector = s → ∀ i < 512, v.fatBuffer i = v.disk (s * 512 + i)

theorem cacheOk_uncached {v : Volume} (h : v.currSector = -1) : CacheOk v := fun s hs => by
  rw [h] at hs
  omega

theorem CacheOk.tables (h : CacheOk v) :
    Tables g v (tableEntry g v.disk 0) (tableEntry g v.disk 1) :=
  ⟨fun _ _ => rfl, fun _ _ => rfl, h⟩

/-- What `cluster_free_chain` of `start` leaves on the disk: in the first
copy the entries that the walk comes to are free and the others as they were;
in the second copy the sectors of these entries are those of the first, and
the others as they were. -/
structure FreesExactly (g : Fat) (disk disk' : Nat → UInt8) (start : Nat) : Prop where
  freed : ∀ c < g.cTotal, Reach g (tableEntry g disk 0) start c → tableEntry g disk' 0 c = 0
  kept : ∀ c < g.cTotal, ¬Reach g (tableEntry g disk 0) start c →
    tableEntry g disk' 0 c = tableEntry g disk 0 c
  mirrored : ∀ d < g.cTotal, (∃ c, Reach g (tableEntry g disk 0) start c ∧
      d * 2 / g.bytesPerSec = c * 2 / g.bytesPerSec) →
    tableEntry g disk' 1 d = tableEntry g disk' 0 d
  kept_second : ∀ d < g.cTotal, (¬∃ c, Reach g (tableEntry g disk 0) start c ∧
      d * 2 / g.bytesPerSec = c * 2 / g.bytesPerSec) →
    tableEntry g disk' 1 d = tableEntry g disk 1 d

/-- In both copies the entries that the walk comes to are free and the others as
they were. -/
structure FreesBoth (g : Fat) (disk disk' : Nat → UInt8) (start : Nat) : Prop where
  freed : ∀ k < 2, ∀ c < g.cTotal, Reach g (tableEntry g disk 0) start c →
    tableEntry g disk' k c = 0
  kept : ∀ k < 2, ∀ c < g.cTotal, ¬Reach g (tableEntry g disk 0) start c →
    tableEntry g disk' k c = tableEntry g disk k c

/-- Where the copies were equal, both are exactly so. -/
theorem FreesExactly.both {disk disk' : Nat → UInt8} {start : Nat}
    (h : FreesExactly g disk disk' start)
    (heq : ∀ c < g.cTotal, tableEntry g disk 1 c = tableEntry g disk 0 c) :
    FreesBoth g disk disk' start := by
  have hsame : ∀ c < g.cTotal, tableEntry g disk' 1 c = tableEntry g disk' 0 c := by
    intro c hc
    by_cases hs : ∃ b, Reach g (tableEntry g disk 0) start b ∧
        c * 2 / g.bytesPerSec = b * 2 / g.bytesPerSec
    · exact h.mirrored c hc hs
    · have hno : ¬Reach g (tableEntry g disk 0) start c := fun hr => hs ⟨c, hr, rfl⟩
      rw [h.kept_second c hc hs, h.kept c hc hno, heq c hc]
  constructor
  · intro k hk c hc hr
    obtain rfl | rfl : k = 0 ∨ k = 1 := by omega
    · exact h.freed c hc hr
    · exact (hsame c hc).trans (h.freed c hc hr)
  · intro k hk c hc hr
    obtain rfl | rfl : k = 0 ∨ k = 1 := by omega
    · exact h.kept c hc hr
    · rw [hsame c hc, heq c hc]
      exact h.kept c hc hr

/-- `cluster_free_chain` ends and frees exactly the chain, for every contents
of the tables and every start. -/
theorem free_chain_exact (hm : Mounted g) (heven : g.bytesPerSec % 2 = 0)
    (hpos : 0 < g.bytesPerSec) (hle : g.bytesPerSec ≤ 512) (hw : Works dev) (hc : CacheOk v)
    (start : Nat) :
    (∃ v', clusterFreeChain dev g 65537 v start = some v') ∧
    ∀ fuel v', clusterFreeChain dev g fuel v start = some v' →
      CacheOk v' ∧ FreesExactly g v.disk v'.disk start := by
  have hb := hm.bounds
  have hsim := tables_simulates hw ((fits_iff hb).mpr (.inl hle))
  have hwhole := wholeTable_of_even hb heven hpos
  have h : Tables g v (tableEntry g v.disk 0) (tableEntry g v.disk 1) := hc.tables
  constructor
  · exact clusterFreeChain_ends hsim hwhole 65537 start
      (a := (tableEntry g v.disk 0, tableEntry g v.disk 1)) h
      (Nat.lt_succ_of_le (usedCount_le _))
  · intro fuel v' hr
    obtain ⟨l, hl, hfst, hsnd, hcache⟩ := clusterFreeChain_visits hsim hwhole fuel
      (a := (tableEntry g v.disk 0, tableEntry g v.disk 1)) h hr
    have hmem : ∀ d, (∃ c ∈ l, d * 2 / g.bytesPerSec = c * 2 / g.bytesPerSec) ↔
        ∃ c, Reach g (tableEntry g v.disk 0) start c ∧
          d * 2 / g.bytesPerSec = c * 2 / g.bytesPerSec := by
      intro d
      simp only [hl]
    refine ⟨hcache, fun c hct hr => ?_, fun c hct hr => ?_, fun d hd hs => ?_, fun d hd hs => ?_⟩
    · rw [hfst c hct, setBoth_fold_fst, if_pos ((hl c).mpr hr)]
    · rw [hfst c hct, setBoth_fold_fst, if_neg (mt (hl c).mp hr)]
    · rw [hsnd d hd, setBoth_fold_snd, if_pos ((hmem d).mpr hs), hfst d hd]
    · rw [hsnd d hd, setBoth_fold_snd, if_neg (mt (hmem d).mp hs)]

end Copies

/-- The chain of cluster 2 goes on with cluster 3 and ends there; the bytes of the
first are 65, those of the second 66. -/
def twoClusterVol : Volume where
  disk := fun a =>
    if a = 516 ∨ a = 1028 then 3 else if a = 518 ∨ a = 1030 then 0xF8
    else if a = 519 ∨ a = 1031 then 0xFF else if a < 2048 then 0
    else if a < 2560 then 65 else 66
  fatBuffer := fun _ => 0
  currSector := -1
  calls := 0
  stack := fun _ => 0

/-- The chain of two clusters is freed in both copies. -/
theorem free_chain_exact_two : ∃ v',
    clusterFreeChain idealDev tinyFat 65537 twoClusterVol 2 = some v' ∧
      FreesExactly tinyFat twoClusterVol.disk v'.disk 2 ∧
      tableEntry tinyFat v'.disk 0 2 = 0 ∧ tableEntry tinyFat v'.disk 0 3 = 0 ∧
      tableEntry tinyFat v'.disk 1 3 = 0 := by
  obtain ⟨⟨v', hrun⟩, hfrees⟩ := free_chain_exact tinyFat_mounted rfl (by decide) (by decide)
    idealDev_works (cacheOk_uncached (v := twoClusterVol) rfl) 2
  have hexact := (hfrees _ v' hrun).2
  have h2 : Reach tinyFat (tableEntry tinyFat twoClusterVol.disk 0) 2 2 :=
    .refl (by decide)
  have h3 : Reach tinyFat (tableEntry tinyFat twoClusterVol.disk 0) 2 3 := by
    have hnext : tableEntry tinyFat twoClusterVol.disk 0 2 = 3 := by decide +kernel
    exact hnext ▸ h2.tail (hnext ▸ by decide)
  have hfreed := hexact.freed 3 (by decide) h3
  exact ⟨v', hrun, hexact, hexact.freed 2 (by decide) h2, hfreed,
    (hexact.mirrored 3 (by decide) ⟨3, h3, rfl⟩).trans hfreed⟩

/-- Cluster 2 ends its chain in the first copy; the entry of cluster 5 is free
there and 7 in the second. -/
def unequalVol : Volume where
  disk := fun a => if a = 516 then 0xF8 else if a = 517 then 0xFF else if a = 1034 then 7 else 0
  fatBuffer := fun _ => 0
  currSector := -1
  calls := 0
  stack := fun _ => 0

/-- Freeing the chain of cluster 2 changes the entry of cluster 5 in the second
copy. -/
theorem free_chain_mirrors : ∃ v', clusterFreeChain idealDev tinyFat 65537 unequalVol 2 = some v' ∧
    ¬FreesBoth tinyFat unequalVol.disk v'.disk 2 := by
  have hrun : (clusterFreeChain idealDev tinyFat 65537 unequalVol 2).map
      (fun v' => tableEntry tinyFat v'.disk 1 5) = some 0 := by decide +kernel
  obtain ⟨v', hv', hentry⟩ := Option.map_eq_some_iff.mp hrun
  refine ⟨v', hv', fun h => ?_⟩
  have hno : ¬Reach tinyFat (tableEntry tinyFat unequalVol.disk 0) 2 5 := by
    have hend : tableEntry tinyFat unequalVol.disk 0 2 = fatClusterInvalid := by decide +kernel
    intro hr
    rcases hr.cases with he | hr
    · exact absurd he (by decide)
    · rw [hend] at hr
      exact absurd hr.valid_left.valid (by decide)
  have hkept := h.kept 1 (by decide) 5 (by decide) hno
  rw [hentry] at hkept
  exact absurd hkept (by decide +kernel)

/-- Tables of two sectors of 1024 bytes each. -/
def wideFat : Fat :=
  { tinyFat with
    tblSectors := 2
    bytesPerSec := 1024
    rootStart := 5
    dataStart := 6
    clusterByteSize := 1024 }

theorem wideFat_mounted : Mounted wideFat := ⟨bootSector 1024 2, by decide +kernel⟩

/-- The chain of cluster 2 goes on with cluster 300 and ends there, in both
copies. -/
def wideVol : Volume where
  disk := fun a =>
    if a = 516 ∨ a = 1540 then 0x2C else if a = 517 ∨ a = 1541 then 1
    else if a = 1112 ∨ a = 2136 then 0xF8 else if a = 1113 ∨ a = 2137 then 0xFF else 0
  fatBuffer := fun _ => 0
  currSector := -1
  calls := 0
  stack := fun _ => 0

/-- The entry of cluster 300 lies behind the 512 bytes that are moved: its
cluster is not freed. -/
theorem free_chain_misses : ∃ v', clusterFreeChain idealDev wideFat 65537 wideVol 2 = some v' ∧
    ¬FreesBoth wideFat wideVol.disk v'.disk 2 := by
  have hrun : (clusterFreeChain idealDev wideFat 65537 wideVol 2).map
      (fun v' => tableEntry wideFat v'.disk 0 300) = some fatClusterInvalid := by decide +kernel
  obtain ⟨v', hv', hentry⟩ := Option.map_eq_some_iff.mp hrun
  refine ⟨v', hv', fun h => ?_⟩
  have hreach : Reach wideFat (tableEntry wideFat wideVol.disk 0) 2 300 := by
    have hnext : tableEntry wideFat wideVol.disk 0 2 = 300 := by decide +kernel
    exact .head (by decide) (hnext ▸ .refl (by decide))
  have hfreed := h.freed 0 (by decide) 300 (by decide) hreach
  rw [hentry] at hfreed
  exact absurd hfreed (by decide)

/-- Unequal copies are made equal, and where sectors are larger than what the
device moves a chain is not followed to its end. -/
theorem free_chain_not_exact :
    (CacheOk unequalVol ∧ ∃ v', clusterFreeChain idealDev tinyFat 65537 unequalVol 2 = some v' ∧
      ¬FreesBoth tinyFat unequalVol.disk v'.disk 2) ∧
    Mounted wideFat ∧ CacheOk wideVol ∧
      ∃ v', clusterFreeChain idealDev wideFat 65537 wideVol 2 = some v' ∧
        ¬FreesBoth wideFat wideVol.disk v'.disk 2 :=
  ⟨⟨cacheOk_uncached rfl, free_chain_mirrors⟩, wideFat_mounted, cacheOk_uncached rfl,
    free_chain_misses⟩

end Wjos
