/-
Wjos.Fs.Fatfs.Alloc — `cluster_alloc_free` on any volume that `fatfs_mount`
accepts.

`allocScan` is its loop alone. The index `curr` has 16 bits, so the loop ends
by itself only below 65536 entries (`alloc_scan_ends_iff`). There the index
never comes back, `Building` is what the loop has built, and the result is a
fresh chain or the table is as it was. On a larger table a full volume is
scanned again and the last cluster of the chain, which is still marked free,
is found once more.
-/
import Mathlib.Data.List.Nodup
import Wjos.Fs.Fatfs.FreeChain

namespace Wjos

open Lib

/-! ## The scan -/

/-- Where the scan is when it stops, and whether `cluster_set_next` failed. -/
structure AllocStop where
  vol : Volume
  pre : Nat
  start : Nat
  cnt : Nat
  err : Bool

/-- The loop of `cluster_alloc_free`, of at most `n` rounds. -/
def allocScan (dev : Dev) (g : Fat) :
    Nat → Volume → (pre start curr cnt : Nat) → Option AllocStop
  | 0, _, _, _, _, _ => none
  | n + 1, v, pre, start, curr, cnt =>
    if cnt ≠ 0 ∧ curr < g.cTotal then
      let (v, free) := clusterGetNext dev g v curr
      if free = fatClusterFree then
        let start := if clusterIsValid start then start else curr
        let (v, err) := if clusterIsValid pre then clusterSetNext dev g v pre curr else (v, 0)
        if err < 0 then some ⟨v, pre, start, cnt, true⟩
        else allocScan dev g n v curr start ((curr + 1) % 65536) (cnt - 1)
      else allocScan dev g n v pre start ((curr + 1) % 65536) cnt
    else some ⟨v, pre, start, cnt, false⟩

/-- What follows the scan. -/
def allocAfter (dev : Dev) (g : Fat) (fuel : Nat) (r : AllocStop) : Option (Volume × Nat) :=
  if r.err then clusterAllocFailed dev g fuel r.vol r.start
  else clusterAllocEnd dev g fuel r.vol r.pre r.start r.cnt

theorem clusterAllocLoop_eq (dev : Dev) (g : Fat) (fuel n : Nat) (v : Volume)
    (pre start curr cnt : Nat) :
    clusterAllocLoop dev g fuel n v pre start curr cnt =
      (allocScan dev g n v pre start curr cnt).bind (allocAfter dev g fuel) := by
  induction n generalizing v pre start curr cnt with
  | zero => rfl
  | succ n ih =>
    rw [clusterAllocLoop, allocScan]
    split
    · dsimp only
      split
      · cases clusterIsValid pre with
        | true =>
          simp only [if_true]
          split
          · rfl
          · exact ih ..
        | false => exact ih ..
      · exact ih ..
    · rfl

/-- Below 65536 entries the index reaches the end of the table. -/
theorem allocScan_ends {dev : Dev} {g : Fat} (ht : g.cTotal ≤ 65535) (n : Nat) :
    ∀ (v : Volume) (pre start curr cnt : Nat), g.cTotal - curr < n →
      ∃ r, allocScan dev g n v pre start curr cnt = some r := by
  induction n with
  | zero => exact fun _ _ _ _ _ h => absurd h (Nat.not_lt_zero _)
  | succ n ih =>
    intro v pre start curr cnt hn
    rw [allocScan]
    split
    next hgo =>
      have hsucc : (curr + 1) % 65536 = curr + 1 := Nat.mod_eq_of_lt (by omega)
      rw [hsucc]
      dsimp only
      split
      · cases clusterIsValid pre with
        | true =>
          simp only [if_true]
          split
          · exact ⟨_, rfl⟩
          · exact ih _ _ _ _ _ (by omega)
        | false => exact ih _ _ _ _ _ (by omega)
      · exact ih _ _ _ _ _ (by omega)
    next => exact ⟨_, rfl⟩

/-- A volume without a zero byte. -/
def fullVol : Volume where
  disk := fun _ => 0xFF
  fatBuffer := fun _ => 0xFF
  currSector := -1
  calls := 0
  stack := fun _ => 0

theorem le16_full (a : Nat) : le16 fullVol.disk a ≠ fatClusterFree := by
  have h : (0xFF : UInt8).toNat = 255 := rfl
  rw [le16, fullVol, h]
  decide

/-- No entry of `fullVol` is free. -/
theorem clusterGetNext_full {g : Fat} {v : Volume} (hd : v.disk = fullVol.disk)
    (hb : v.fatBuffer = fullVol.fatBuffer) (c : Nat) :
    ∃ v' x, clusterGetNext idealDev g v c = (v', x) ∧ x ≠ fatClusterFree ∧ v'.disk = fullVol.disk ∧
      v'.fatBuffer = fullVol.fatBuffer := by
  have hbuf : ∀ n, copyTo v.fatBuffer 0 n (fun _ => (0xFF : UInt8)) = fullVol.fatBuffer := by
    intro n
    funext a
    rw [hb]
    unfold copyTo
    split <;> rfl
  have hread : ∀ sector, ∃ v', breadSector idealDev v sector = (v', 0) ∧
      v'.disk = fullVol.disk ∧ v'.fatBuffer = fullVol.fatBuffer := by
    intro sector
    unfold breadSector
    split
    · exact ⟨v, rfl, hd, hb⟩
    · refine ⟨_, rfl, hd, ?_⟩
      rw [hd]
      exact hbuf _
  unfold clusterGetNext
  split
  · exact ⟨v, _, rfl, by decide, hd, hb⟩
  · dsimp only
    split
    · exact ⟨v, _, rfl, by decide, hd, hb⟩
    · obtain ⟨v', hr, hd', hb'⟩ := hread (g.tblStart + c * clusterSize / g.bytesPerSec)
      rw [hr]
      refine ⟨v', _, rfl, ?_, hd', hb'⟩
      rw [hb']
      exact le16_full _

theorem allocScan_full {g : Fat} (ht : 65536 ≤ g.cTotal) (n : Nat) :
    ∀ {v : Volume} {curr : Nat}, v.disk = fullVol.disk → v.fatBuffer = fullVol.fatBuffer →
      curr < 65536 → ∀ pre start cnt, 0 < cnt →
        allocScan idealDev g n v pre start curr cnt = none := by
  induction n with
  | zero => intros; rfl
  | succ n ih =>
    intro v curr hd hb hcurr pre start cnt hcnt
    obtain ⟨v', x, hget, hx, hd', hb'⟩ := clusterGetNext_full (g := g) hd hb curr
    rw [allocScan, if_pos ⟨by omega, by omega⟩, hget]
    dsimp only
    rw [if_neg hx]
    exact ih hd' hb' (Nat.mod_lt _ (by decide)) pre start cnt hcnt

/-- The scan ends on every volume, whatever the device answers, exactly where
the table has fewer than 65536 entries. -/
theorem alloc_scan_ends_iff (g : Fat) :
    (∀ dev v cnt, ∃ n r,
      allocScan dev g n v fatClusterInvalid fatClusterInvalid 2 cnt = some r) ↔
      g.cTotal ≤ 65535 := by
  constructor
  · intro h
    by_contra ht
    obtain ⟨n, r, hr⟩ := h idealDev fullVol 1
    rw [allocScan_full (by omega) n rfl rfl (by decide) _ _ 1 (by decide)] at hr
    exact absurd hr (by simp)
  · intro ht dev v cnt
    exact ⟨g.cTotal + 1, allocScan_ends ht _ v _ _ 2 cnt (by omega)⟩

/-- A table of 65536 entries, the largest for sectors of 512 bytes. -/
def maxFat : Fat where
  tblStart := 1
  tblCnt := 2
  tblSectors := 256
  bytesPerSec := 512
  secPerCluster := 1
  rootEntCnt := 16
  rootStart := 513
  dataStart := 514
  clusterByteSize := 512

theorem maxFat_mounted : Mounted maxFat := ⟨bootSector 512 256, by decide +kernel⟩

/-- On a full volume with such a table the scan for one cluster never ends. -/
theorem alloc_scan_loops :
    Mounted maxFat ∧ ∀ n,
      allocScan idealDev maxFat n fullVol fatClusterInvalid fatClusterInvalid 2 1 = none :=
  ⟨maxFat_mounted, fun n => allocScan_full (by decide) n rfl rfl (by decide) _ _ 1 (by decide)⟩

/-! ## The chain that is built -/

/-- The chain `l` that the scan has built: its clusters were free, they point
to each other, and the last one is still marked free. -/
structure ChainBuilt (g : Fat) (f₀ f : Nat → Nat) (l : List Nat) (pre start : Nat) : Prop where
  free : ∀ c ∈ l, InTable g c ∧ f₀ c = 0
  other : ∀ c, c ∉ l → f c = f₀ c
  nodup : l.Nodup
  path : l = [] ∧ pre = fatClusterInvalid ∧ start = fatClusterInvalid ∨
    ∃ l', l = l' ++ [pre] ∧ Path f start l 0

/-- A finished chain of clusters that were free. -/
structure FreshChain (g : Fat) (f f' : Nat → Nat) (start : Nat) (l : List Nat) : Prop where
  free : ∀ c ∈ l, InTable g c ∧ f c = 0
  other : ∀ c, c ∉ l → f' c = f c
  nodup : l.Nodup
  path : Path f' start l fatClusterInvalid

namespace ChainBuilt

variable {g : Fat} {f₀ f : Nat → Nat} {l : List Nat} {pre start curr : Nat}

theorem init (g : Fat) (f : Nat → Nat) :
    ChainBuilt g f f [] fatClusterInvalid fatClusterInvalid :=
  ⟨by simp, fun _ _ => rfl, List.nodup_nil, .inl ⟨rfl, rfl, rfl⟩⟩

theorem not_mem_front (h : ChainBuilt g f₀ f l pre start) {l' : List Nat} (hl : l = l' ++ [pre]) :
    pre ∉ l' := by
  have hnd := h.nodup
  rw [hl, List.nodup_append] at hnd
  exact fun hc => hnd.2.2 pre hc pre (by simp) rfl

/-- The first cluster. -/
theorem first (h : ChainBuilt g f₀ f [] pre start) (hc : InTable g curr) (hf : f curr = 0) :
    ChainBuilt g f₀ f [curr] curr curr := by
  refine ⟨fun c hcl => ?_, fun c _ => h.other c List.not_mem_nil, List.nodup_singleton curr,
    .inr ⟨[], rfl, rfl, hf⟩⟩
  rw [List.mem_singleton.mp hcl, ← h.other curr List.not_mem_nil]
  exact ⟨hc, hf⟩

/-- One more cluster behind the last one. -/
theorem more (h : ChainBuilt g f₀ f l pre start) (hnew : curr ∉ l) (hc : InTable g curr)
    (hf : f curr = 0) {l' : List Nat} (hl : l = l' ++ [pre]) (hp : Path f start l 0) :
    ChainBuilt g f₀ (Function.update f pre curr) (l ++ [curr]) curr start := by
  have hmem : pre ∈ l := by simp [hl]
  have hne : curr ≠ pre := fun he => hnew (he ▸ hmem)
  refine ⟨fun c hcl => ?_, fun c hcl => ?_, ?_, .inr ⟨l, rfl, ?_⟩⟩
  · rcases List.mem_append.mp hcl with hcl | hcl
    · exact h.free c hcl
    · rw [List.mem_singleton.mp hcl, ← h.other curr hnew]
      exact ⟨hc, hf⟩
  · rw [List.mem_append, not_or] at hcl
    have hcp : c ≠ pre := fun he => hcl.1 (he ▸ hmem)
    rw [Function.update_of_ne hcp, h.other c hcl.1]
  · rw [List.nodup_append]
    refine ⟨h.nodup, List.nodup_singleton curr, fun a ha b hb => ?_⟩
    rw [List.mem_singleton.mp hb]
    exact ne_of_mem_of_not_mem ha hnew
  · rw [path_concat, Function.update_of_ne hne]
    exact ⟨hl ▸ (hl ▸ hp).relink (h.not_mem_front hl), hf⟩

/-- The last cluster marked as the end. -/
theorem fresh (h : ChainBuilt g f₀ f l pre start) {l' : List Nat} (hl : l = l' ++ [pre])
    (hp : Path f start l 0) :
    FreshChain g f₀ (Function.update f pre fatClusterInvalid) start l := by
  have hmem : pre ∈ l := by simp [hl]
  refine ⟨h.free, fun c hcl => ?_, h.nodup, ?_⟩
  · have hcp : c ≠ pre := fun he => hcl (he ▸ hmem)
    rw [Function.update_of_ne hcp, h.other c hcl]
  · exact hl ▸ (hl ▸ hp).relink (h.not_mem_front hl)

/-- With the chain cleared the table is as it was. -/
theorem cleared (h : ChainBuilt g f₀ f l pre start) {f' : Nat → Nat}
    (hf' : ∀ c, f' c = if c ∈ l then 0 else f c) : f' = f₀ := by
  funext c
  rw [hf' c]
  split
  next hc => exact (h.free c hc).2.symm
  next hc => exact h.other c hc

end ChainBuilt

section Built

variable {α : Type*} {dev : Dev} {g : Fat} {R : Volume → α → Prop} {fat : α → Nat → Nat}
  {upd : α → Nat → Nat → α} {v v' : Volume} {a : α} {f₀ : Nat → Nat}

/-- Freeing a chain that ends clears its entries. -/
theorem clusterFreeChain_path (hsim : Simulates dev g R fat upd) {l : List Nat} :
    ∀ {fuel : Nat} {v : Volume} {a : α} {start e : Nat}, R v a → Path (fat a) start l e →
      (∀ c ∈ l, InTable g c) → l.Nodup → clusterIsValid e = false →
      clusterFreeChain dev g fuel v start = some v' →
      ∃ a', R v' a' ∧ ∀ c, fat a' c = if c ∈ l then 0 else fat a c := by
  induction l with
  | nil =>
    rintro fuel v a start e h rfl - - he hr
    rw [clusterFreeChain_of_not_valid he] at hr
    obtain rfl := Option.some.inj hr
    exact ⟨a, h, fun c => by simp⟩
  | cons b l ih =>
    rintro fuel v a start e h ⟨rfl, hp⟩ hin hnd he hr
    have hs := hin start List.mem_cons_self
    obtain ⟨hnot, hnd'⟩ := List.nodup_cons.mp hnd
    cases fuel with
    | zero => simp [clusterFreeChain, hs.valid] at hr
    | succ fuel =>
      obtain ⟨v₁, h₁, hstep⟩ := clusterFreeChain_step hsim h hs fuel
      rw [hstep] at hr
      have hp' : Path (fat (upd a start 0)) (fat a start) l e := by
        rw [hsim.fat_upd hs]
        exact hp.congr fun c hc => Function.update_of_ne (ne_of_mem_of_not_mem hc hnot) _ _
      obtain ⟨a', h', hfat⟩ := ih h₁ hp' (fun c hc => hin c (List.mem_cons_of_mem _ hc)) hnd' he hr
      refine ⟨a', h', fun c => ?_⟩
      rw [hfat c, hsim.fat_upd hs, Function.update_apply]
      by_cases hcs : c = start
      · simp [hcs]
      · simp [hcs]

/-- Where the index does not come back, the scan builds a chain of what it
counts off. -/
theorem allocScan_built (hsim : Simulates dev g R fat upd) (ht : g.cTotal ≤ 65535) (n : Nat)
    {r : AllocStop} :
    ∀ {v : Volume} {a : α} {l : List Nat} {pre start curr cnt : Nat},
      ChainBuilt g f₀ (fat a) l pre start → (∀ c ∈ l, c < curr) → R v a →
      allocScan dev g n v pre start curr cnt = some r →
      ∃ a' l', ChainBuilt g f₀ (fat a') l' r.pre r.start ∧ R r.vol a' ∧ r.err = false ∧
        l'.length + r.cnt = l.length + cnt := by
  induction n with
  | zero => exact fun _ _ _ hr => absurd hr (by simp [allocScan])
  | succ n ih =>
    intro v a l pre start curr cnt hb hlt h hr
    rw [allocScan] at hr
    split at hr
    next hgo =>
      obtain ⟨hcnt, hcurr⟩ := hgo
      have hsucc : (curr + 1) % 65536 = curr + 1 := Nat.mod_eq_of_lt (by omega)
      have hlt' : ∀ c ∈ l, c < curr + 1 := fun c hc => Nat.lt_succ_of_lt (hlt c hc)
      rw [hsucc] at hr
      cases hv : clusterIsValid curr with
      | false =>
        rw [clusterGetNext_of_not_valid hv] at hr
        dsimp only at hr
        rw [if_neg (by decide)] at hr
        exact ih hb hlt' h hr
      | true =>
        have hin : InTable g curr := ⟨hv, hcurr⟩
        obtain ⟨v₁, hget, h₁⟩ := hsim.get h hin
        rw [hget] at hr
        dsimp only at hr
        by_cases hf : fat a curr = fatClusterFree
        · rw [if_pos hf] at hr
          have hnew : curr ∉ l := fun hc => Nat.lt_irrefl _ (hlt curr hc)
          have hltc : ∀ c ∈ l ++ [curr], c < curr + 1 := by
            intro c hc
            rcases List.mem_append.mp hc with hc | hc
            · exact hlt' c hc
            · rw [List.mem_singleton.mp hc]
              exact Nat.lt_succ_self curr
          rcases hb.path with ⟨rfl, rfl, rfl⟩ | ⟨l', hl, hp⟩
          · have hni : clusterIsValid fatClusterInvalid ≠ true := by decide
            simp only [if_neg hni] at hr
            rw [if_neg (by decide)] at hr
            obtain ⟨a', l'', hb', h', herr, hlen⟩ := ih (hb.first hin hf) hltc h₁ hr
            refine ⟨a', l'', hb', h', herr, ?_⟩
            rw [hlen, List.length_singleton, List.length_nil]
            omega
          · have hpre := (hb.free pre (by simp [hl])).1
            have hstart := (hb.free start (hp.start_mem (by simp [hl]))).1
            obtain ⟨v₂, hset, h₂⟩ := hsim.set h₁ hpre (x := curr) (by omega)
            rw [if_pos hpre.valid, hset] at hr
            dsimp only at hr
            rw [if_neg (by decide), if_pos hstart.valid] at hr
            have hb₂ := hb.more hnew hin hf hl hp
            rw [← hsim.fat_upd hpre] at hb₂
            obtain ⟨a', l'', hb', h', herr, hlen⟩ := ih hb₂ hltc h₂ hr
            refine ⟨a', l'', hb', h', herr, ?_⟩
            rw [hlen, List.length_append, List.length_singleton]
            omega
        · rw [if_neg hf] at hr
          exact ih hb hlt' h₁ hr
    next =>
      obtain rfl := Option.some.inj hr
      exact ⟨a, l, hb, h, rfl, rfl⟩

/-- The failure path of `cluster_alloc_free` undoes what was built. -/
theorem clusterAllocFailed_built (hsim : Simulates dev g R fat upd) {l : List Nat}
    {pre start fuel r : Nat} (hb : ChainBuilt g f₀ (fat a) l pre start) (h : R v a)
    (hr : clusterAllocFailed dev g fuel v start = some (v', r)) :
    r = fatClusterInvalid ∧ ∃ a', R v' a' ∧ fat a' = f₀ := by
  obtain ⟨v₁, hfree, he⟩ := Option.map_eq_some_iff.mp hr
  obtain ⟨rfl, rfl⟩ := Prod.mk.inj he
  refine ⟨rfl, ?_⟩
  have hpath : ∃ e, Path (fat a) start l e ∧ clusterIsValid e = false := by
    rcases hb.path with ⟨rfl, -, rfl⟩ | ⟨l', -, hp⟩
    · exact ⟨fatClusterInvalid, rfl, by decide⟩
    · exact ⟨0, hp, by decide⟩
  obtain ⟨e, hp, he⟩ := hpath
  obtain ⟨a', h', hfat⟩ := clusterFreeChain_path hsim h hp (fun c hc => (hb.free c hc).1)
    hb.nodup he hfree
  exact ⟨a', h', hb.cleared hfat⟩

theorem clusterAllocEnd_built (hsim : Simulates dev g R fat upd) {l : List Nat}
    {pre start cnt fuel r : Nat} (hb : ChainBuilt g f₀ (fat a) l pre start) (h : R v a)
    (hr : clusterAllocEnd dev g fuel v pre start cnt = some (v', r)) :
    ∃ a', R v' a' ∧ ((cnt = 0 ∧ l ≠ [] ∧ FreshChain g f₀ (fat a') r l) ∨
      (r = fatClusterInvalid ∧ fat a' = f₀)) := by
  have hfailed : clusterAllocFailed dev g fuel v start = some (v', r) →
      ∃ a', R v' a' ∧ ((cnt = 0 ∧ l ≠ [] ∧ FreshChain g f₀ (fat a') r l) ∨
        (r = fatClusterInvalid ∧ fat a' = f₀)) := by
    intro hf
    obtain ⟨hinv, a', h', hfat⟩ := clusterAllocFailed_built hsim hb h hf
    exact ⟨a', h', .inr ⟨hinv, hfat⟩⟩
  unfold clusterAllocEnd at hr
  split at hr
  next hcnt =>
    rcases hb.path with ⟨hl, rfl, -⟩ | ⟨l', hl, hp⟩
    · rw [clusterSetNext_of_not_valid (by decide)] at hr
      exact hfailed hr
    · have hpre := (hb.free pre (by simp [hl])).1
      obtain ⟨v₁, hset, h₁⟩ := hsim.set h hpre (x := fatClusterInvalid) (by decide)
      rw [hset] at hr
      dsimp only at hr
      rw [if_pos rfl] at hr
      obtain ⟨rfl, rfl⟩ := Prod.mk.inj (Option.some.inj hr)
      have hfresh := hb.fresh hl hp
      rw [← hsim.fat_upd hpre] at hfresh
      exact ⟨_, h₁, .inl ⟨hcnt, by simp [hl], hfresh⟩⟩
  next => exact hfailed hr

/-- `cluster_alloc_free` on a table of fewer than 65536 entries: a fresh chain
of `cnt` clusters, or the table as it was. -/
theorem clusterAllocFree_built (hsim : Simulates dev g R fat upd) (ht : g.cTotal ≤ 65535)
    (h : R v a) {fuel cnt r : Nat} (hr : clusterAllocFree dev g fuel v cnt = some (v', r)) :
    ∃ a', R v' a' ∧ ((∃ l, l.length = cnt ∧ l ≠ [] ∧ FreshChain g (fat a) (fat a') r l) ∨
      (r = fatClusterInvalid ∧ fat a' = fat a)) := by
  rw [clusterAllocFree, clusterAllocLoop_eq] at hr
  obtain ⟨s, hscan, hafter⟩ := Option.bind_eq_some_iff.mp hr
  obtain ⟨a₁, l, hb, h₁, herr, hlen⟩ :=
    allocScan_built hsim ht fuel (ChainBuilt.init g (fat a)) (by simp) h hscan
  rw [allocAfter, if_neg (by simp [herr])] at hafter
  obtain ⟨a', h', ⟨hcnt, hne, hfresh⟩ | hfailed⟩ := clusterAllocEnd_built hsim hb h₁ hafter
  · refine ⟨a', h', .inl ⟨l, ?_, hne, hfresh⟩⟩
    rw [hcnt, List.length_nil] at hlen
    omega
  · exact ⟨a', h', .inr hfailed⟩

end Built

end Wjos
