/-
Wjos.Fs.Fatfs.DeviceCalls — which answers of the device a call depends on.

`calls` counts the calls of the device, and the `k`-th call gets the answer
`dev k`. So the result of a function depends on the answers between the two
values of `calls` before and after it, and on no others: `Agrees dev dev'` on
that range gives the same result with `dev'`. By `Asks.works` a call during which
no transfer failed is one on a device that works.
-/
import Wjos.Fs.Fatfs.Alloc

namespace Wjos

open Lib

/-- The devices answer alike from call `m` on, before call `n`. -/
def Agrees (dev dev' : Dev) (m n : Nat) : Prop := ∀ k, m ≤ k → k < n → ∀ s, dev' k s = dev k s

theorem Agrees.mono {dev dev' : Dev} {m n m' n' : Nat} (h : Agrees dev dev' m n) (hm : m ≤ m')
    (hn : n' ≤ n) : Agrees dev dev' m' n' := fun k h₁ h₂ =>
  h k (Nat.le_trans hm h₁) (Nat.lt_of_lt_of_le h₂ hn)

/-- A step that leads from `v` to `v'` asks the device in between only: its
result `r` is the same for a device that agrees. -/
structure Asks {α : Type*} (dev : Dev) (f : Dev → α) (v v' : Volume) : Prop where
  le : v.calls ≤ v'.calls
  same : ∀ dev', Agrees dev dev' v.calls v'.calls → f dev' = f dev

/-- No call at all. -/
theorem Asks.const {α : Type*} {dev : Dev} {r : α} {v v' : Volume} (h : v'.calls = v.calls) :
    Asks dev (fun _ => r) v v' :=
  ⟨Nat.le_of_eq h.symm, fun _ _ => rfl⟩

/-- One call. -/
theorem Asks.call {α : Type*} {dev : Dev} (k : Int → α) (s : Nat) {v v' : Volume}
    (h : v'.calls = v.calls + 1) : Asks dev (fun d => k (d v.calls s)) v v' :=
  ⟨by omega, fun _ hag => congrArg k (hag v.calls (Nat.le_refl _) (by omega) s)⟩

/-- One step after another. -/
theorem Asks.bind {α β : Type*} {dev : Dev} {f : Dev → β} {k : Dev → β → α} {v v₁ v' : Volume}
    (hf : Asks dev f v v₁) (hk : Asks dev (fun d => k d (f dev)) v₁ v') :
    Asks dev (fun d => k d (f d)) v v' := by
  refine ⟨Nat.le_trans hf.le hk.le, fun dev' h => ?_⟩
  have hsame := hf.same dev' (h.mono (Nat.le_refl _) hk.le)
  rw [hsame]
  exact hk.same dev' (h.mono hf.le (Nat.le_refl _))

/-- Only the number of calls counts. -/
theorem Asks.of_calls {α : Type*} {dev : Dev} {f : Dev → α} {v v₁ v' : Volume}
    (h : Asks dev f v₁ v') (hv : v₁.calls = v.calls) : Asks dev f v v' :=
  ⟨hv ▸ h.le, fun dev' hag => h.same dev' (hv ▸ hag)⟩

section Steps

variable {dev : Dev} {g : Fat}

theorem devReadBuffer_asks (v : Volume) (addr size : Nat) :
    Asks dev (fun d => devReadBuffer d v addr size) v (devReadBuffer dev v addr size).1 :=
  Asks.call (fun cnt =>
    ({ v with
        fatBuffer := copyTo v.fatBuffer 0 (min cnt.toNat size * sectorSize) fun i =>
          v.disk (addr * sectorSize + i)
        calls := v.calls + 1 }, cnt)) size rfl

theorem breadSector_asks (v : Volume) (sector : Nat) :
    Asks dev (fun d => breadSector d v sector) v (breadSector dev v sector).1 := by
  unfold breadSector
  split
  · exact Asks.const rfl
  · refine (devReadBuffer_asks v sector 1).bind (k := fun _ r =>
      if r.2 = 1 then ({ r.1 with currSector := (sector : Int) }, (0 : Int)) else (r.1, -1)) ?_
    refine Asks.const ?_
    dsimp only
    split <;> rfl

theorem bwriteSector_asks (v : Volume) (sector : Nat) :
    Asks dev (fun d => bwriteSector d v sector) v (bwriteSector dev v sector).1 :=
  Asks.call (fun cnt =>
    ({ v with
        disk := copyTo v.disk (sector * sectorSize) (min cnt.toNat 1 * sectorSize) v.fatBuffer
        calls := v.calls + 1 }, if cnt = 1 then 0 else -1)) 1 rfl

theorem writeCopies_asks (n : Nat) :
    ∀ (v : Volume) (sector : Nat),
      Asks dev (fun d => writeCopies d g n v sector) v (writeCopies dev g n v sector).1 := by
  induction n with
  | zero => exact fun v sector => Asks.const rfl
  | succ n ih =>
    intro v sector
    refine (bwriteSector_asks v (g.tblStart + sector)).bind (k := fun d r =>
      if r.2 < 0 then (r.1, (-1 : Int)) else writeCopies d g n r.1 (sector + g.tblSectors)) ?_
    simp only [writeCopies]
    split
    · exact Asks.const rfl
    · exact ih _ _

theorem clusterGetNext_asks (v : Volume) (c : Nat) :
    Asks dev (fun d => clusterGetNext d g v c) v (clusterGetNext dev g v c).1 := by
  unfold clusterGetNext
  split
  · exact Asks.const rfl
  · dsimp only
    split
    · exact Asks.const rfl
    · refine (breadSector_asks v _).bind (k := fun _ r =>
        if r.2 < 0 then (r.1, fatClusterInvalid)
        else (r.1, le16 r.1.fatBuffer (c * clusterSize % g.bytesPerSec))) ?_
      refine Asks.const ?_
      split <;> rfl

theorem clusterSetNext_asks (v : Volume) (c x : Nat) :
    Asks dev (fun d => clusterSetNext d g v c x) v (clusterSetNext dev g v c x).1 := by
  unfold clusterSetNext
  split
  · exact Asks.const rfl
  · dsimp only
    split
    · exact Asks.const rfl
    · refine (breadSector_asks v _).bind (k := fun d r =>
        if r.2 < 0 then (r.1, (fatClusterInvalid : Int))
        else writeCopies d g g.tblCnt
          { r.1 with fatBuffer := put16 r.1.fatBuffer (c * clusterSize % g.bytesPerSec) x }
          (c * clusterSize / g.bytesPerSec)) ?_
      split
      · exact Asks.const rfl
      · exact (writeCopies_asks _ _ _).of_calls rfl

theorem clusterFreeChain_asks (fuel : Nat) :
    ∀ {v v' : Volume} {start : Nat}, clusterFreeChain dev g fuel v start = some v' →
      Asks dev (fun d => clusterFreeChain d g fuel v start) v v' := by
  induction fuel with
  | zero =>
    intro v v' start hr
    simp only [clusterFreeChain] at hr ⊢
    split at hr
    · exact absurd hr (by simp)
    · obtain rfl := Option.some.inj hr
      exact Asks.const rfl
  | succ fuel ih =>
    intro v v' start hr
    simp only [clusterFreeChain] at hr ⊢
    split at hr
    next hv =>
      simp only [if_pos hv]
      refine (clusterGetNext_asks v start).bind (k := fun d r =>
        clusterFreeChain d g fuel (clusterSetNext d g r.1 start fatClusterFree).1 r.2) ?_
      refine (clusterSetNext_asks _ start fatClusterFree).bind (k := fun d r =>
        clusterFreeChain d g fuel r.1 (clusterGetNext dev g v start).2) ?_
      exact ih hr
    next hv =>
      simp only [if_neg hv]
      obtain rfl := Option.some.inj hr
      exact Asks.const rfl

theorem clusterAllocFailed_asks {fuel : Nat} {v v' : Volume} {start r : Nat}
    (hr : clusterAllocFailed dev g fuel v start = some (v', r)) :
    Asks dev (fun d => clusterAllocFailed d g fuel v start) v v' := by
  unfold clusterAllocFailed at hr ⊢
  obtain ⟨v₁, hfree, he⟩ := Option.map_eq_some_iff.mp hr
  obtain ⟨rfl, -⟩ := Prod.mk.inj he
  obtain ⟨hle, hsame⟩ := clusterFreeChain_asks fuel hfree
  exact ⟨hle, fun dev' h => by rw [hsame dev' h]⟩

theorem clusterAllocEnd_asks {fuel : Nat} {v v' : Volume} {pre start cnt r : Nat}
    (hr : clusterAllocEnd dev g fuel v pre start cnt = some (v', r)) :
    Asks dev (fun d => clusterAllocEnd d g fuel v pre start cnt) v v' := by
  unfold clusterAllocEnd at hr ⊢
  split at hr
  next hcnt =>
    simp only [if_pos hcnt]
    refine (clusterSetNext_asks v pre fatClusterInvalid).bind (k := fun d r =>
      if r.2 = 0 then some (r.1, start) else clusterAllocFailed d g fuel r.1 start) ?_
    dsimp only at hr
    split at hr
    next herr =>
      simp only [if_pos herr]
      obtain ⟨rfl, -⟩ := Prod.mk.inj (Option.some.inj hr)
      exact Asks.const rfl
    next herr =>
      simp only [if_neg herr]
      exact clusterAllocFailed_asks hr
  next hcnt =>
    simp only [if_neg hcnt]
    exact clusterAllocFailed_asks hr

theorem clusterAllocLoop_asks (fuel n : Nat) {r : Nat} {v' : Volume} :
    ∀ {v : Volume} {pre start curr cnt : Nat},
      clusterAllocLoop dev g fuel n v pre start curr cnt = some (v', r) →
      Asks dev (fun d => clusterAllocLoop d g fuel n v pre start curr cnt) v v' := by
  induction n with
  | zero => exact fun hr => absurd hr (by simp [clusterAllocLoop])
  | succ n ih =>
    intro v pre start curr cnt hr
    simp only [clusterAllocLoop] at hr ⊢
    split at hr
    next hgo =>
      simp only [if_pos hgo]
      refine (clusterGetNext_asks v curr).bind (k := fun d x =>
        if x.2 = fatClusterFree then
          if (if clusterIsValid pre then clusterSetNext d g x.1 pre curr else (x.1, 0)).2 < 0 then
            clusterAllocFailed d g fuel
              (if clusterIsValid pre then clusterSetNext d g x.1 pre curr else (x.1, 0)).1
              (if clusterIsValid start then start else curr)
          else
            clusterAllocLoop d g fuel n
              (if clusterIsValid pre then clusterSetNext d g x.1 pre curr else (x.1, 0)).1 curr
              (if clusterIsValid start then start else curr) ((curr + 1) % 65536) (cnt - 1)
        else clusterAllocLoop d g fuel n x.1 pre start ((curr + 1) % 65536) cnt) ?_
      split at hr
      next hfree =>
        simp only [if_pos hfree]
        cases hpre : clusterIsValid pre with
        | true =>
          simp only [hpre, if_true] at hr ⊢
          refine (clusterSetNext_asks _ pre curr).bind (k := fun d y =>
            if y.2 < 0 then
              clusterAllocFailed d g fuel y.1 (if clusterIsValid start then start else curr)
            else
              clusterAllocLoop d g fuel n y.1 curr (if clusterIsValid start then start else curr)
                ((curr + 1) % 65536) (cnt - 1)) ?_
          split at hr
          next herr =>
            simp only [if_pos herr]
            exact clusterAllocFailed_asks hr
          next herr =>
            simp only [if_neg herr]
            exact ih hr
        | false =>
          simp only [hpre, Bool.false_eq_true, if_false, Int.lt_irrefl] at hr ⊢
          exact ih hr
      next hfree =>
        simp only [if_neg hfree]
        exact ih hr
    next hgo =>
      simp only [if_neg hgo]
      exact clusterAllocEnd_asks hr

theorem clusterAllocFree_asks {fuel cnt r : Nat} {v v' : Volume}
    (hr : clusterAllocFree dev g fuel v cnt = some (v', r)) :
    Asks dev (fun d => clusterAllocFree d g fuel v cnt) v v' :=
  clusterAllocLoop_asks fuel fuel hr

end Steps

/-- No transfer fails between two states of a volume. -/
def NoFailure (dev : Dev) (v v' : Volume) : Prop :=
  ∀ k, v.calls ≤ k → k < v'.calls → ∀ n : Nat, dev k n = n

/-- A result without a failed transfer is that of a device that works. -/
theorem Asks.works {α : Type*} {dev : Dev} {f : Dev → α} {v v' : Volume} (h : Asks dev f v v')
    (hno : NoFailure dev v v') : f idealDev = f dev :=
  h.same idealDev fun k h₁ h₂ n => (hno k h₁ h₂ n).symm

end Wjos
