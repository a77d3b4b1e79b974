/-
Wjos.Fs.Fatfs.FreeList — which clusters `cluster_alloc_free` takes.

The scan goes up the table from cluster 2, so `cnt` clusters that it returns
are the `cnt` lowest free ones, in ascending order
(`clusterAllocFree_takes`), and the free ones that remain are the rest of the
list. The table may be in any state. Where it has more than 65535 entries the
16-bit counter of the scan runs round, and the same is only said of a scan
that finds all it looks for before that, or nothing at all.
-/
import Wjos.Fs.Fatfs.Contents

namespace Wjos

open Lib

/-- The free clusters from `curr` on, in ascending order. -/
def freeFrom (g : Fat) (im : Image) (curr : Nat) : List Nat :=
  (List.range' curr (g.cTotal - curr)).filter fun c => im.fat c = 0

/-- The free clusters, in ascending order. -/
def freeClusters (g : Fat) (im : Image) : List Nat := freeFrom g im 2

section FreeList

variable {g : Fat} {v : Volume} {im im' : Image} {curr c start : Nat} {l : List Nat}

theorem freeFrom_of_lt (h : curr < g.cTotal) :
    freeFrom g im curr =
      if im.fat curr = 0 then curr :: freeFrom g im (curr + 1) else freeFrom g im (curr + 1) := by
  obtain ⟨n, hn⟩ : ∃ n, g.cTotal - curr = n + 1 := ⟨g.cTotal - curr - 1, by omega⟩
  have hn' : g.cTotal - (curr + 1) = n := by omega
  simp only [freeFrom, hn, hn', List.range'_succ, List.filter_cons, decide_eq_true_eq]

theorem mem_freeFrom : c ∈ freeFrom g im curr ↔ (curr ≤ c ∧ c < g.cTotal) ∧ im.fat c = 0 := by
  simp only [freeFrom, List.mem_filter, List.mem_range'_1, decide_eq_true_eq]
  omega

/-- The list has the free clusters, all of them. -/
theorem mem_freeClusters (h : Shows g v im) : c ∈ freeClusters g im ↔ im.fat c = 0 := by
  rw [freeClusters, mem_freeFrom]
  constructor
  · exact fun hc => hc.2
  · intro hz
    have ht := inTable_of_fat_zero h hz
    exact ⟨⟨ht.two_le, ht.2⟩, hz⟩

theorem freeClusters_nodup (g : Fat) (im : Image) : (freeClusters g im).Nodup :=
  List.Nodup.filter _ List.nodup_range'

/-- Of a list without repetition, what is not among the first `n`. -/
theorem filter_not_mem_take (hl : l.Nodup) (n : Nat) :
    l.filter (fun c => c ∉ l.take n) = l.drop n := by
  have hsplit : l.take n ++ l.drop n = l := List.take_append_drop n l
  have hnd : (l.take n ++ l.drop n).Nodup := hsplit.symm ▸ hl
  calc l.filter (fun c => c ∉ l.take n)
      = (l.take n ++ l.drop n).filter (fun c => c ∉ l.take n) := by rw [hsplit]
    _ = (l.take n).filter (fun c => c ∉ l.take n) ++
          (l.drop n).filter (fun c => c ∉ l.take n) := List.filter_append ..
    _ = [] ++ l.drop n := by
      congr 1
      · exact List.filter_eq_nil_iff.mpr fun c hc => by simpa using hc
      · refine List.filter_eq_self.mpr fun c hc => ?_
        have hnot : c ∉ l.take n := fun ht => (List.nodup_append.mp hnd).2.2 c ht c hc rfl
        simpa using hnot
    _ = l.drop n := List.nil_append _

/-- After an allocation of the first `cnt` clusters the others are left. -/
theorem Fresh.freeClusters_eq (h : Shows g v im) {cnt : Nat}
    (hf : Fresh im im' start ((freeClusters g im).take cnt)) :
    freeClusters g im' = (freeClusters g im).drop cnt := by
  rw [← filter_not_mem_take (freeClusters_nodup g im) cnt]
  have hused := fat_ne_zero hf.path fun c hc => inTable_of_fat_zero h (hf.free c hc)
  unfold freeClusters freeFrom at hused ⊢
  rw [List.filter_filter]
  refine List.filter_congr fun c _ => ?_
  by_cases hc : c ∈ (freeClusters g im).take cnt
  · have hn := hused c hc
    unfold freeClusters freeFrom at hc
    simp [hc, hn]
  · have ho := hf.other c hc
    unfold freeClusters freeFrom at hc
    simp [hc, ho]

/-- A cluster that is made to point somewhere is not free. -/
theorem freeClusters_setNext (h : Shows g v im) {x : Nat} (hx : x ≠ 0) :
    freeClusters g (im.setNext g c x) = (freeClusters g im).filter fun d => d ≠ c := by
  unfold freeClusters freeFrom
  rw [List.filter_filter]
  refine List.filter_congr fun d _ => ?_
  by_cases ht : InTable g c
  · rw [setNext_fat g im ht, Function.update_apply]
    by_cases hd : d = c
    · simp [hd, hx]
    · simp [hd]
  · have hne : im.fat c ≠ 0 := fun hz => ht (inTable_of_fat_zero h hz)
    rw [setNext_fat_of_not im ht]
    by_cases hd : d = c
    · simp [hd, hne]
    · simp [hd]

end FreeList

/-! ## The scan -/

section Scan

variable {dev : Dev} {g : Fat} {v v' : Volume} {im im₁ : Image} {l : List Nat}
  {pre start curr cnt r : Nat}

theorem clusterAllocFailed_end (hw : Works dev) (hg : g.Ok) (h : Shows g v im) {fuel : Nat}
    (hr : clusterAllocFailed dev g fuel v start = some (v', r)) :
    r = fatClusterInvalid ∧ ∃ im', Shows g v' im' := by
  obtain ⟨v₁, hfree, he⟩ := Option.map_eq_some_iff.mp hr
  obtain ⟨rfl, rfl⟩ := Prod.mk.inj he
  obtain ⟨im', h', -⟩ := clusterFreeChain_shows hw hg fuel h hfree
  exact ⟨rfl, im', h'⟩

/-- What `cluster_alloc_free` returns: no cluster, or a chain of `l`. -/
def ReturnsChain (g : Fat) (im : Image) (v' : Volume) (r : Nat) (l : List Nat) : Prop :=
  ∃ im', Shows g v' im' ∧ (clusterIsValid r = true → Fresh im im' r l)

theorem returns_failed (hw : Works dev) (hg : g.Ok) (h : Shows g v im₁) {fuel : Nat}
    (hr : clusterAllocFailed dev g fuel v start = some (v', r)) : ReturnsChain g im v' r l := by
  obtain ⟨rfl, im', h'⟩ := clusterAllocFailed_end hw hg h hr
  exact ⟨im', h', fun hv => absurd hv (by decide)⟩

/-- The loop behind a chain `l` takes the next `cnt` free clusters. -/
theorem clusterAllocLoop_takes (hw : Works dev) (hg : g.Ok) {v₀ : Volume} (h₀ : Shows g v₀ im)
    (fuel n : Nat) :
    ∀ {v : Volume} {im₁ : Image} {l : List Nat} {pre start curr cnt : Nat},
      Building im im₁ l pre start curr → Shows g v im₁ → curr ≤ 65535 →
      (cnt ≤ (freeFrom g im curr).length ∨ g.cTotal ≤ 65535) →
      clusterAllocLoop dev g fuel n v pre start curr cnt = some (v', r) →
      ReturnsChain g im v' r (l ++ (freeFrom g im curr).take cnt) ∧
        (clusterIsValid r = true → cnt ≤ (freeFrom g im curr).length) := by
  induction n with
  | zero => exact fun _ _ _ _ hr => absurd hr (by simp [clusterAllocLoop])
  | succ n ih =>
    intro v im₁ l pre start curr cnt hb h hlt hroom hr
    have hmem : ∀ c ∈ l, InTable g c := fun c hc => inTable_of_fat_zero h₀ (hb.free c hc)
    rw [clusterAllocLoop] at hr
    split at hr
    next hgo =>
      obtain ⟨hne, hcurr⟩ := hgo
      have hlist : freeFrom g im curr = _ := freeFrom_of_lt hcurr
      -- where the counter would run round, a free cluster is still to come
      have hsmall : curr + 1 ≤ 65535 := by
        rcases hroom with hroom | ht
        · obtain ⟨c, hc⟩ := List.exists_mem_of_length_pos
            (Nat.lt_of_lt_of_le (Nat.pos_of_ne_zero hne) hroom)
          obtain ⟨⟨hle, -⟩, hz⟩ := mem_freeFrom.mp hc
          have hc := (inTable_of_fat_zero h₀ hz).lt
          omega
        · omega
      have hsucc : (curr + 1) % 65536 = curr + 1 := Nat.mod_eq_of_lt (by omega)
      obtain ⟨v₁, hget, h₁⟩ := clusterGetNext_shows hw hg h curr
      rw [hget] at hr
      dsimp only at hr
      rw [hsucc, hb.fat_curr, show fatClusterFree = 0 from rfl] at hr
      by_cases hf : im.fat curr = 0
      · rw [if_pos hf] at hlist hr
        have htake : (freeFrom g im curr).take cnt =
            curr :: (freeFrom g im (curr + 1)).take (cnt - 1) := by
          obtain ⟨m, rfl⟩ := Nat.exists_eq_succ_of_ne_zero hne
          rw [hlist]
          rfl
        have hlen : (freeFrom g im curr).length = (freeFrom g im (curr + 1)).length + 1 := by
          rw [hlist, List.length_cons]
        have hit := inTable_of_fat_zero h₀ hf
        rcases hb.path with ⟨rfl, rfl, rfl⟩ | ⟨l', hl, hp⟩
        · have hni : clusterIsValid fatClusterInvalid ≠ true := by decide
          simp only [if_neg hni] at hr
          rw [if_neg (by decide)] at hr
          obtain ⟨hret, hcnt⟩ := ih (hb.first hf) h₁ hsmall (by omega) hr
          rw [htake]
          exact ⟨hret, fun hv => by have := hcnt hv; omega⟩
        · have hpre : InTable g pre := hmem pre (by simp [hl])
          have hstart : InTable g start := hmem start (hp.start_mem (by simp [hl]))
          obtain ⟨v₂, err, hset, h₂, herr, -⟩ :=
            clusterSetNext_shows hw hg h₁ pre (x := curr) (by have := hit.lt; omega)
          have hok : ¬err < 0 := by simp [herr, hpre.valid]
          rw [if_pos hpre.valid, hset] at hr
          dsimp only at hr
          rw [if_neg hok, if_pos hstart.valid] at hr
          obtain ⟨hret, hcnt⟩ := ih (hb.more hf hl hp hpre) h₂ hsmall (by omega) hr
          rw [List.append_assoc] at hret
          rw [htake]
          exact ⟨hret, fun hv => by have := hcnt hv; omega⟩
      · rw [if_neg hf] at hlist hr
        rw [hlist] at hroom ⊢
        exact ih hb.skip h₁ hsmall hroom hr
    next hgo =>
      unfold clusterAllocEnd at hr
      split at hr
      next hz =>
        subst hz
        rw [List.take_zero, List.append_nil]
        refine ⟨?_, fun _ => Nat.zero_le _⟩
        obtain ⟨v₁, err, hset, h₁, herr, hok⟩ :=
          clusterSetNext_shows hw hg h pre (x := fatClusterInvalid) (by decide)
        rw [hset] at hr
        dsimp only at hr
        rcases hb.path with ⟨rfl, rfl, rfl⟩ | ⟨l', hl, hp⟩
        · have hneg := herr.mpr (by decide)
          rw [if_neg (by omega)] at hr
          exact returns_failed hw hg h₁ hr
        · have hpre : InTable g pre := hmem pre (by simp [hl])
          rw [if_pos (hok hpre)] at hr
          obtain ⟨rfl, rfl⟩ := Prod.mk.inj (Option.some.inj hr)
          exact ⟨_, h₁, fun _ => hb.fresh hl hp hpre⟩
      next =>
        have hret : ReturnsChain g im v' r (l ++ (freeFrom g im curr).take cnt) :=
          returns_failed hw hg h hr
        obtain ⟨rfl, -⟩ := clusterAllocFailed_end hw hg h hr
        exact ⟨hret, fun hv => absurd hv (by decide)⟩

/-- Where nothing is free, nothing is found. -/
theorem clusterAllocLoop_full (hw : Works dev) (hg : g.Ok) (hno : ∀ c, im.fat c ≠ 0)
    (fuel n : Nat) :
    ∀ {v : Volume} {curr : Nat}, Shows g v im → cnt ≠ 0 →
      clusterAllocLoop dev g fuel n v fatClusterInvalid fatClusterInvalid curr cnt =
        some (v', r) → r = fatClusterInvalid ∧ ∃ im', Shows g v' im' := by
  induction n with
  | zero => exact fun _ _ hr => absurd hr (by simp [clusterAllocLoop])
  | succ n ih =>
    intro v curr h hne hr
    rw [clusterAllocLoop] at hr
    split at hr
    · obtain ⟨v₁, hget, h₁⟩ := clusterGetNext_shows hw hg h curr
      rw [hget] at hr
      dsimp only at hr
      rw [show fatClusterFree = 0 from rfl, if_neg (hno curr)] at hr
      exact ih h₁ hne hr
    · rw [clusterAllocEnd, if_neg hne] at hr
      exact clusterAllocFailed_end hw hg h hr

/-- `cluster_alloc_free` takes the `cnt` lowest free clusters, or none. -/
theorem clusterAllocFree_takes (hw : Works dev) (hg : g.Ok) (h : Shows g v im) {fuel : Nat}
    (hroom : (freeClusters g im).length < cnt → freeClusters g im = [] ∨ g.cTotal ≤ 65535)
    (hr : clusterAllocFree dev g fuel v cnt = some (v', r)) :
    ReturnsChain g im v' r ((freeClusters g im).take cnt) ∧
      (clusterIsValid r = true → cnt ≤ (freeClusters g im).length) := by
  unfold clusterAllocFree at hr
  have htakes := fun hc =>
    clusterAllocLoop_takes hw hg h fuel fuel (Building.init im) h (by decide) hc hr
  rcases Nat.lt_or_ge (freeClusters g im).length cnt with hlt | hge
  · rcases hroom hlt with hnil | ht
    · have hno : ∀ c, im.fat c ≠ 0 := fun c hz => by
        have hc := (mem_freeClusters h).mpr hz
        rw [hnil] at hc
        exact absurd hc List.not_mem_nil
      obtain ⟨rfl, im', h'⟩ := clusterAllocLoop_full hw hg hno fuel fuel h (by omega) hr
      exact ⟨⟨im', h', fun hv => absurd hv (by decide)⟩, fun hv => absurd hv (by decide)⟩
    · exact htakes (.inr ht)
  · exact htakes (.inl hge)

end Scan

end Wjos
